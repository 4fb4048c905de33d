import BlueskyTrends.Avro
import BlueskyTrends.Proof.Routing

/-!
# What ingest accepts, bronze archives

* `toModel_isCreate`: an accepted event is a create commit.
* `toModel_createdAt`: its `created_at` is what pydantic makes of the record's `createdAt`.
* `archived_iff`: **the archived row is the model's, at one instant in every zone, exactly when `createdAt`
  carries an offset.**
-/

namespace BlueskyTrends

variable {H : Host} {k : Kind} {event commit record : Val} {kw : List (String × Val)} {m : Event}

/-! ## Accepted events -/

theorem guard_ok {α : Type} {c : Bool} {e : PyExc} {f : Unit → Except PyExc α} {a : α}
    (h : (if c = true then (throw e : Except PyExc Unit) >>= f else f ()) = .ok a) :
    c = false ∧ f () = .ok a := by
  cases c with
  | true => cases h
  | false => exact ⟨rfl, h⟩

theorem Val.item_of_get {v x : Val} {name : String} (h : v.get name = .ok x) (hne : x ≠ .null) :
    v.item? name = some x := by
  cases v with
  | dict items =>
    have hval : (items.lookup name).getD .null = x := Except.ok.inj h
    cases hl : items.lookup name with
    | none =>
      rw [hl] at hval
      exact absurd hval.symm hne
    | some y =>
      rw [hl] at hval
      rw [Val.item?, hl, ← hval]
      rfl
  | _ => cases h

/-- **An accepted event is a create commit** of one of the three collections. -/
theorem toModel_isCreate (h : toModel H event = .ok m) : ∃ k commit record, IsCreate k event commit record := by
  have hdict : ∀ {v : Val}, v.isDict = true → v ≠ .null := by
    rintro v hv rfl
    cases hv
  have hstr : ∀ {v : Val} {s : String}, v.eqStr s = true → v = .str s := fun hv => Val.eqStr_iff.1 hv
  unfold toModel at h
  obtain ⟨kind, hkind, h⟩ := bind_ok.1 h
  obtain ⟨hiscommit, h⟩ := guard_ok h
  obtain ⟨commit, hcommit, h⟩ := bind_ok.1 h
  obtain ⟨hcommitDict, h⟩ := guard_ok h
  obtain ⟨operation, hop, h⟩ := bind_ok.1 h
  obtain ⟨hcreate, h⟩ := guard_ok h
  obtain ⟨record, hrecord, h⟩ := bind_ok.1 h
  obtain ⟨hrecordDict, h⟩ := guard_ok h
  obtain ⟨did, -, h⟩ := bind_ok.1 h
  obtain ⟨collection, hcollection, hbuild⟩ := bind_ok.1 h
  rw [Bool.not_eq_false'] at hiscommit hcommitDict hcreate hrecordDict
  obtain rfl := hstr hiscommit
  obtain rfl := hstr hcreate
  have hkinds : ∀ k : Kind, collection.eqStr k.collection = true →
      ∃ k commit record, IsCreate k event commit record := by
    intro k hk
    obtain rfl := hstr hk
    exact ⟨k, commit, record, Val.item_of_get hkind (by simp), Val.item_of_get hcommit (hdict hcommitDict),
      Val.item_of_get hop (by simp), Val.item_of_get hrecord (hdict hrecordDict), hrecordDict,
      Val.item_of_get hcollection (by simp)⟩
  by_cases hpost : collection.eqStr "app.bsky.feed.post"
  · exact hkinds .post hpost
  by_cases hlike : collection.eqStr "app.bsky.feed.like"
  · exact hkinds .like hlike
  by_cases hfollow : collection.eqStr "app.bsky.graph.follow"
  · exact hkinds .follow hfollow
  · -- an unknown collection raises
    simp only [hpost, hlike, hfollow, if_false, Bool.false_eq_true] at hbuild
    cases hbuild

/-! ## The timestamp of an event -/

/-- The `createdAt` of the event's record. -/
def recordCreatedAt (event : Val) : Option Val :=
  ((event.item? "commit").bind (·.item? "record")).bind (·.item? "createdAt")

theorem eventBase_createdAt {b : EventBase} (h : H.eventBase? kw = some b) :
    required H.asDatetime? kw "created_at" = some b.createdAt := by
  simp only [Host.eventBase?, bind, pure, Option.bind_eq_some_iff, Option.some.injEq] at h
  obtain ⟨did, -, rkey, -, cid, -, t, ht, rfl⟩ := h
  exact ht

theorem map_orReject {α : Type} {f : α → Event} {model : String} {x : Option α}
    (h : f <$> orReject model kw x = .ok m) : ∃ a, x = some a ∧ m = f a := by
  cases x with
  | none => cases h
  | some a => exact ⟨a, rfl, (Except.ok.inj h).symm⟩

theorem build_createdAt (h : H.build kw k = .ok m) :
    required H.asDatetime? kw "created_at" = some m.createdAt := by
  cases k with
  | post =>
    obtain ⟨a, ha, rfl⟩ := map_orReject h
    simp only [bind, pure, Option.bind_eq_some_iff, Option.some.injEq] at ha
    obtain ⟨-, -, b, hb, text, -, langs, -, parent, -, root, -, rfl⟩ := ha
    exact eventBase_createdAt hb
  | like =>
    obtain ⟨a, ha, rfl⟩ := map_orReject h
    simp only [bind, pure, Option.bind_eq_some_iff, Option.some.injEq] at ha
    obtain ⟨-, -, b, hb, uri, -, cid, -, rfl⟩ := ha
    exact eventBase_createdAt hb
  | follow =>
    obtain ⟨a, ha, rfl⟩ := map_orReject h
    simp only [bind, pure, Option.bind_eq_some_iff, Option.some.injEq] at ha
    obtain ⟨-, -, b, hb, did, -, rfl⟩ := ha
    exact eventBase_createdAt hb

/-- Whatever the kind, the model is given the record's `createdAt`. -/
theorem readFields_createdAt (h : IsCreate k event commit record)
    (hr : readFields k event commit record = .ok kw) :
    kw.lookup "created_at" = record.item? "createdAt" := by
  cases k with
  | post =>
    obtain ⟨did, rkey, cid, t, text, p, r, ⟨-, -, -, ht⟩, -, -, -, rfl⟩ := (readFields_post h.recordDict).1 hr
    rw [ht]
    rfl
  | like =>
    obtain ⟨did, rkey, cid, t, s, uri, scid, ⟨-, -, -, ht⟩, -, -, -, rfl⟩ := readFields_like.1 hr
    rw [ht]
    rfl
  | follow =>
    obtain ⟨did, rkey, cid, t, s, ⟨-, -, -, ht⟩, -, rfl⟩ := readFields_follow.1 hr
    rw [ht]
    rfl

/-- **The `created_at` of a model** is what pydantic makes of the record's `createdAt`. -/
theorem toModel_createdAt (h : toModel H event = .ok m) :
    (recordCreatedAt event).bind H.asDatetime? = some m.createdAt := by
  obtain ⟨k, commit, record, hcreate⟩ := toModel_isCreate h
  rw [toModel_read hcreate] at h
  obtain ⟨kw, hread, hbuild⟩ := bind_ok.1 h
  have hlookup := readFields_createdAt hcreate hread
  have hparsed := build_createdAt hbuild
  rw [required, hlookup] at hparsed
  rw [recordCreatedAt, hcreate.hasCommit, Option.bind_some, hcreate.hasRecord, Option.bind_some, hparsed]

/-! ## The archived row -/

/-- The row has the model's identity and payload; no `langs` is the empty list. -/
def Archived.Faithful : Archived → Event → Prop
  | .post row, .post m => row.did = m.did ∧ row.rkey = m.rkey ∧ row.cid = m.cid ∧ row.text = m.text ∧
      row.langs = m.langs.getD [] ∧ row.replyParent = m.replyParent ∧ row.replyRoot = m.replyRoot
  | .like row, .like m => row.did = m.did ∧ row.rkey = m.rkey ∧ row.cid = m.cid ∧
      row.subjectUri = m.subjectUri ∧ row.subjectCid = m.subjectCid
  | .follow row, .follow m => row.did = m.did ∧ row.rkey = m.rkey ∧ row.cid = m.cid ∧
      row.subjectDid = m.subjectDid
  | _, _ => False

theorem row_faithful (z : Zone) (m : Event) (base : RowBase) : (m.row z base).Faithful m := by
  cases m with
  | post m => exact ⟨rfl, rfl, rfl, rfl, rfl, rfl, rfl⟩
  | like m => exact ⟨rfl, rfl, rfl, rfl, rfl⟩
  | follow m => exact ⟨rfl, rfl, rfl, rfl⟩

theorem row_createdAt (z : Zone) (m : Event) (base : RowBase) :
    (m.row z base).createdAt = .ofInstant (m.createdAt.instant z) := by
  cases m <;> rfl

/-- The `createdAt` of the record, as pydantic parses it, carries an offset. -/
def CarriesOffset (H : Host) (event : Val) : Prop :=
  ∃ t, (recordCreatedAt event).bind H.asDatetime? = some t ∧ t.utcoffset.isSome

/-- **What ingest accepts, bronze archives.** An accepted event, written on an ingest host in zone `z` and
read by an archiver in zone `z'`, is archived with the model's fields at the model's instant; the instant is
the same in all zones exactly when `createdAt` carries an offset. -/
theorem archived_iff {Datum : Type} (C : AvroCodec Datum) (H' : Host) (base : RowBase)
    (hm : toModel H event = .ok m) :
    (∃ instant, ∀ z z' : Zone, ∃ row, archive C z H' m base = some (.ok row) ∧ row.Faithful m ∧
        row.createdAt.instant z' = m.createdAt.instant z ∧ row.createdAt.instant z' = instant) ↔
      CarriesOffset H event := by
  have hparsed := toModel_createdAt hm
  have hoffset : CarriesOffset H event ↔ m.createdAt.utcoffset.isSome := by
    constructor
    · rintro ⟨t, ht, hsome⟩
      obtain rfl := Option.some.inj (hparsed.symm.trans ht)
      exact hsome
    · intro hsome
      exact ⟨m.createdAt, hparsed, hsome⟩
  rw [hoffset, ← DateTime.instant_const_iff]
  constructor
  · rintro ⟨i, hi⟩
    refine ⟨i, ?_⟩
    intro z
    obtain ⟨row, -, -, hmodel, hinstant⟩ := hi z z
    rw [← hmodel, hinstant]
  · rintro ⟨i, hi⟩
    refine ⟨i, ?_⟩
    intro z z'
    have hrow : (m.row z base).createdAt.instant z' = m.createdAt.instant z := by
      rw [row_createdAt, DateTime.instant_ofInstant]
    exact ⟨m.row z base, archive_eq C z H' m base, row_faithful z m base, hrow, hrow.trans (hi z)⟩

/-- The model of a post with an offset in its `createdAt`. -/
def offsetModel : Event :=
  .post ⟨⟨"did:plc:author123", "3kpostrkey", "bafypost", ⟨1704067200000000, some 0⟩⟩, "one", none, none, none⟩

theorem archived_iff_post : ∃ instant, ∀ z z' : Zone, ∃ row,
    archive AvroDatum.codec z asciiHost offsetModel ⟨0, 0, 0⟩ = some (.ok row) ∧ row.Faithful offsetModel ∧
    row.createdAt.instant z' = offsetModel.createdAt.instant z ∧ row.createdAt.instant z' = instant := by
  have hm : toModel asciiHost (postEvent 10 (.str "one")) = .ok offsetModel := rfl
  exact (archived_iff AvroDatum.codec asciiHost ⟨0, 0, 0⟩ hm).2 ⟨_, rfl, rfl⟩

/-- A host that also knows a timestamp without an offset. -/
def localHost : Host := { asciiHost with
  parseDatetime
    | .str "2024-01-01T00:00:00" => some ⟨1704067200000000, none⟩
    | v => asciiHost.parseDatetime v }

/-- A post whose client wrote its `createdAt` without an offset. -/
def localPost : Val := .dict [("did", .str "did:plc:author123"), ("time_us", .int 10), ("kind", .str "commit"),
  ("commit", .dict [("operation", .str "create"), ("collection", .str "app.bsky.feed.post"),
    ("rkey", .str "3kpostrkey"), ("cid", .str "bafypost"),
    ("record", .dict [("createdAt", .str "2024-01-01T00:00:00"), ("text", .str "one")])])]

def localModel : Event :=
  .post ⟨⟨"did:plc:author123", "3kpostrkey", "bafypost", ⟨1704067200000000, none⟩⟩, "one", none, none, none⟩

/-- **The same post is archived nine hours apart** by ingest hosts in UTC and nine hours east of it. -/
theorem local_post_moves : toModel localHost localPost = .ok localModel ∧ ∃ row row',
    archive AvroDatum.codec (.fixed 0 (by decide)) localHost localModel ⟨0, 0, 0⟩ = some (.ok row) ∧
    archive AvroDatum.codec (.fixed 9 (by decide)) localHost localModel ⟨0, 0, 0⟩ = some (.ok row') ∧
    row.createdAt = .ofInstant 1704067200000000 ∧ row'.createdAt = .ofInstant 1704034800000000 :=
  ⟨rfl, _, _, rfl, rfl, rfl, rfl⟩

end BlueskyTrends
