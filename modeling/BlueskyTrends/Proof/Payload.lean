import BlueskyTrends.Proof.ArchiverStep
import BlueskyTrends.Proof.Dumps

/-!
# What a dead letter says of its record

The payload of a dead letter is the JSON text of what the deserializer made of the record, `null` when it made
nothing of it.

* `deadLetter_payload`: the payload, whatever the cause.
* `payload_determines_iff`: **a payload determines its record exactly when the deserialized value does**, up to
  what JSON tells apart.
* `payload_shared`: a record read while the registry is down and one that is no Avro share a payload.
-/

namespace BlueskyTrends

variable {H : Host} {st : BronzeSettings} {deserializer deserializer' : Deserializer}
  {value value' : Option Bytes} {d d' : DlqRow}

/-- One of the archivers polls a message with this value and routes it to the dead-letter topic as `d`.
The deserializer is that of the moment: a registry lookup that fails is part of it. -/
inductive DeadLetter (H : Host) (st : BronzeSettings) (deserializer : Deserializer) (value : Option Bytes)
    (d : DlqRow) : Prop
  | posts {r : Run BronzeRow} {p : ℤ} {o : ℕ} {now ts now' : ℤ}
      (h : (r.poll (postsBronze H st) deserializer (some ⟨none, some p, some o, value⟩) now ts now').ctl =
        .send d p o)
  | likes {r : Run LikeRow} {p : ℤ} {o : ℕ} {now ts now' : ℤ}
      (h : (r.poll (likesBronze H st) deserializer (some ⟨none, some p, some o, value⟩) now ts now').ctl =
        .send d p o)
  | follows {r : Run FollowRow} {p : ℤ} {o : ℕ} {now ts now' : ℤ}
      (h : (r.poll (followsBronze H st) deserializer (some ⟨none, some p, some o, value⟩) now ts now').ctl =
        .send d p o)

/-! ## The payload -/

/-- Both branches of a decoder that quarantine store the JSON text of what they were given. -/
theorem decodeRow_payload {Model Row : Type} {model : String}
    {build : List (String × Val) → Except PyExc Model} {mk : Model → RowBase → Row} {obj : Val}
    {base : RowBase} (h : decodeRow H model build mk obj base = .error d) : d.rawPayload = obj.dumps := by
  unfold decodeRow at h
  split at h
  · rename_i hnone
    cases obj with
    | null =>
      cases h
      rw [Val.dumps]
    | _ => cases hnone
  · split at h
    · cases h
    · cases h
      rfl

/-- A message on its way to quarantine is one that the decoder rejects. -/
theorem Run.poll_send {Row : Type} [KafkaRow Row] {A : Archiver Row} {r : Run Row} {p : ℤ} {o : ℕ}
    {now ts now' : ℤ}
    (h : (r.poll A deserializer (some ⟨none, some p, some o, value⟩) now ts now').ctl = .send d p o) :
    ∃ base, A.decode (deserialize deserializer value) base = .error d := by
  simp only [Run.poll, Run.data] at h
  cases hdec : A.decode (deserialize deserializer value) ⟨p, o, ts⟩ with
  | error row =>
    rw [hdec] at h
    simp only [Ctl.send.injEq] at h
    exact ⟨_, hdec.trans (congrArg _ h.1)⟩
  | ok row =>
    rw [hdec] at h
    simp only at h
    split at h
    · have hcalm := Run.flush_ctl { r with
        lastActivity := now
        eofPartitions := r.eofPartitions.filter (· ≠ p)
        batch := r.batch.add row } .top
      rw [h] at hcalm
      cases hcalm
    · cases h

/-- **The payload of a dead letter**, whatever the cause. -/
theorem deadLetter_payload (h : DeadLetter H st deserializer value d) :
    d.rawPayload = (deserialize deserializer value).dumps := by
  cases h with
  | posts h =>
    obtain ⟨base, hdec⟩ := Run.poll_send h
    simp only [postsBronze, decodePost] at hdec
    exact decodeRow_payload hdec
  | likes h =>
    obtain ⟨base, hdec⟩ := Run.poll_send h
    simp only [likesBronze, decodeLike] at hdec
    exact decodeRow_payload hdec
  | follows h =>
    obtain ⟨base, hdec⟩ := Run.poll_send h
    simp only [followsBronze, decodeFollow] at hdec
    exact decodeRow_payload hdec

/-! ## What it determines -/

/-- The floats of what a deserializer returns are numerals. -/
def Deserializer.Numeric (deserializer : Deserializer) : Prop := ∀ value v, deserializer value = some v → v.Numeric

theorem Deserializer.Numeric.deserialize (h : deserializer.Numeric) (value : Option Bytes) :
    (BlueskyTrends.deserialize deserializer value).Numeric := by
  unfold BlueskyTrends.deserialize
  cases hv : deserializer value with
  | none => exact .null
  | some v => exact h value v hv

/-- **A payload determines its record exactly when the deserialized value does**: two different values have
different payloads exactly when JSON tells apart what was made of them. -/
theorem payload_determines_iff (hD : deserializer.Numeric) (hD' : deserializer'.Numeric)
    (h : DeadLetter H st deserializer value d) (h' : DeadLetter H st deserializer' value' d') :
    value ≠ value' → (d.rawPayload ≠ d'.rawPayload ↔
      (deserialize deserializer value).json ≠ (deserialize deserializer' value').json) := by
  intro _
  rw [deadLetter_payload h, deadLetter_payload h']
  exact not_congr (dumps_eq_iff (hD.deserialize value) (hD'.deserialize value'))

/-- What is stored for a record of which the deserializer makes nothing. -/
def nullLetter : DlqRow := ⟨"null", "empty or undecodable Avro payload"⟩

variable (st) in
/-- A record that `decode_post` rejects is routed to quarantine. -/
theorem deadLetter_of_reject (h : decodePost H (deserialize deserializer value) ⟨0, 0, 0⟩ = .error d) :
    DeadLetter H st deserializer value d := by
  have hsend : ((Run.init st 0 0).poll (postsBronze H st) deserializer (some ⟨none, some 0, some 0, value⟩)
      0 0 0).ctl = .send d 0 0 := by
    simp only [Run.poll, Run.data, postsBronze, h]
  exact .posts hsend

variable (H st) in
theorem deadLetter_none (hnone : deserializer value = none) : DeadLetter H st deserializer value nullLetter := by
  refine deadLetter_of_reject st ?_
  unfold deserialize
  rw [hnone]
  rfl

/-- Two records of another schema: their only field is the `did`. -/
def didDeserializer : Deserializer
  | some [7] => some (.dict [("did", .str "did:a")])
  | some [8] => some (.dict [("did", .str "did:b")])
  | _ => none

theorem didDeserializer_numeric : didDeserializer.Numeric := by
  intro value v h
  have hdict : ∀ did, (Val.dict [("did", .str did)]).Numeric := by
    intro did
    refine .dict fun p hp => ?_
    obtain rfl := List.mem_singleton.1 hp
    exact .str did
  unfold didDeserializer at h
  split at h
  · cases h
    exact hdict _
  · cases h
    exact hdict _
  · cases h

/-- Both are rejected, and can be told apart in quarantine. -/
theorem payload_determines_rejected : ∃ d d',
    DeadLetter asciiHost defaultSettings didDeserializer (some [7]) d ∧
      DeadLetter asciiHost defaultSettings didDeserializer (some [8]) d' ∧ d.rawPayload ≠ d'.rawPayload := by
  obtain ⟨d, hd⟩ : ∃ d, decodePost asciiHost (deserialize didDeserializer (some [7])) ⟨0, 0, 0⟩ = .error d :=
    ⟨_, rfl⟩
  obtain ⟨d', hd'⟩ : ∃ d, decodePost asciiHost (deserialize didDeserializer (some [8])) ⟨0, 0, 0⟩ = .error d :=
    ⟨_, rfl⟩
  have h := deadLetter_of_reject defaultSettings hd
  have h' := deadLetter_of_reject defaultSettings hd'
  have hjson : (deserialize didDeserializer (some [7])).json ≠ (deserialize didDeserializer (some [8])).json := by
    simp [deserialize, didDeserializer, Val.json, jsonItems]
  exact ⟨d, d', h, h',
    (payload_determines_iff didDeserializer_numeric didDeserializer_numeric h h' (by decide)).2 hjson⟩

/-- A record read while the registry is down and one that is no Avro share a payload. -/
theorem payload_shared : DeadLetter asciiHost defaultSettings (fun _ => none) (some postBytes) nullLetter ∧
    DeadLetter asciiHost defaultSettings postDeserializer (some [7]) nullLetter ∧
    some postBytes ≠ some [7] :=
  ⟨deadLetter_none _ _ rfl, deadLetter_none _ _ (by decide), by decide⟩

end BlueskyTrends
