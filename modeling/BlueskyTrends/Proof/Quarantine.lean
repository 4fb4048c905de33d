import BlueskyTrends.Proof.ArchiverStep

/-!
# Quarantined records

`quarantine_durable_iff`: in every state of a sequence of runs, with crashes anywhere and any
fate of the dead letters, all undecodable records below the committed offsets have an acked
envelope, exactly when each commit past an undecodable record comes after the ack of its envelope.
-/

namespace BlueskyTrends

variable {Row : Type} [KafkaRow Row] {A : Archiver Row} {deserializer : Deserializer} {st : BronzeSettings}
  {log : KafkaLog} {c₀ position : ℤ → ℕ} {acked : List Envelope} {w w' : World Row} {r r' : Run Row}
  {a : World.Act}

/-- The broker has acked an envelope of the record. -/
def EnvelopeAcked (acked : List Envelope) (p : ℤ) (o : ℕ) : Prop :=
  ∃ e ∈ acked, e.partition = p ∧ e.offset = o

instance (acked : List Envelope) (p : ℤ) (o : ℕ) : Decidable (EnvelopeAcked acked p o) := by
  unfold EnvelopeAcked; infer_instance

theorem EnvelopeAcked.mono {acked' : List Envelope} {p : ℤ} {o : ℕ} (h : EnvelopeAcked acked p o)
    (hsub : acked ⊆ acked') : EnvelopeAcked acked' p o := h.imp fun _ he => ⟨hsub he.1, he.2⟩

namespace World

/-- The undecodable records from the offsets `c₀` up to the committed ones have an acked envelope. -/
def Quarantined (A : Archiver Row) (deserializer : Deserializer) (log : KafkaLog) (c₀ : ℤ → ℕ)
    (w : World Row) :
    Prop :=
  ∀ p o, c₀ p ≤ o → o < w.committed p → HasRecord A deserializer log false p o → EnvelopeAcked w.acked p o

/-- A commit past an undecodable record comes after the ack of its envelope. -/
def AckedFirst (w : World Row) : Act → Prop
  | .run (.go _ _) => ∀ r ∈ w.run, ∀ x ∈ r.ctl.past, EnvelopeAcked w.acked x.1 x.2
  | _ => True

instance (w : World Row) : ∀ a, Decidable (w.AckedFirst a)
  | .run (.go _ _) => inferInstanceAs (Decidable
      (∀ r ∈ w.run, ∀ x ∈ r.ctl.past, EnvelopeAcked w.acked x.1 x.2))
  | .run (.poll ..) | .run .raise | .run (.report ..) | .start .. | .crash => isTrue trivial

/-- The undecodable records a run has passed have an acked envelope, up to the one in hand. -/
def RunQuarantined (A : Archiver Row) (deserializer : Deserializer) (log : KafkaLog) (c₀ position : ℤ → ℕ)
    (acked : List Envelope) (r : Run Row) : Prop :=
  ∀ p o, c₀ p ≤ o → o < position p → HasRecord A deserializer log false p o →
    EnvelopeAcked acked p o ∨ r.ctl.inHand = some (p, o) ∨ r.ctl.failed = true

structure Safe (A : Archiver Row) (deserializer : Deserializer) (log : KafkaLog) (c₀ : ℤ → ℕ)
    (w : World Row) :
    Prop where
  placed : w.Placed A deserializer log c₀
  quarantined : w.Quarantined A deserializer log c₀
  run : ∀ r, w.run = some r → RunQuarantined A deserializer log c₀ w.position w.acked r

theorem safe_init (table : List Row) (c₀ : ℤ → ℕ) : (init table c₀).Safe A deserializer log c₀ where
  placed := placed_init table c₀
  quarantined := fun p o h1 h2 => absurd (show o < c₀ p from h2) (not_lt.2 h1)
  run := by simp [init]

/-- At a control point with nothing in hand, all that was passed is quarantined. -/
theorem RunQuarantined.all (h : RunQuarantined A deserializer log c₀ position acked r)
    (hc : r.ctl.inHand = none) (hf : r.ctl.failed = false) :
    ∀ p o, c₀ p ≤ o → o < position p → HasRecord A deserializer log false p o →
      EnvelopeAcked acked p o := by
  intro p o h1 h2 h3
  rcases h p o h1 h2 h3 with hh | hh | hh
  · exact hh
  · rw [hc] at hh; cases hh
  · rw [hf] at hh; cases hh

/-- **A step of a run keeps the quarantine**, if a commit past an undecodable record finds its
envelope acked. -/
theorem safe_runStep (h : w.Safe A deserializer log c₀) {a : RunAct} (hok : w.AckedFirst (.run a))
    (hm : Move A deserializer log w a w') : w'.Safe A deserializer log c₀ := by
  have hplaced := placed_move h.placed hm
  cases hm with
  | stay => exact h
  | @quiet _ r r' hr hb hc hbusy =>
    refine ⟨hplaced, h.quarantined, fun x hx p o h1 h2 h3 => ?_⟩
    obtain rfl := Option.some.inj hx
    rcases h.run r hr p o h1 h2 h3 with hh | hh | hh
    · exact Or.inl hh
    · have hbusy' : r.ctl.calm = false := by
        by_contra hcalm
        rw [Ctl.inHand_calm (by simpa using hcalm)] at hh; cases hh
      exact Or.inr (Or.inr (hbusy (Or.inl hbusy')))
    · exact Or.inr (Or.inr (hbusy (Or.inr hh)))
  | @reject _ r r' p o value d hr ht hd hv hb hc =>
    refine ⟨hplaced, h.quarantined, fun x hx q o' h1 h2 h3 => ?_⟩
    obtain rfl := Option.some.inj hx
    rcases hd.passed h3 h2 with hlt | ⟨rfl, rfl⟩
    · exact Or.inl ((h.run r hr).all (by rw [ht]; rfl) (by rw [ht]; rfl) q o' h1 hlt h3)
    · rw [hc]; exact Or.inr (Or.inl rfl)
  | @accept _ r r' p o value row hr ht hd hv hp ho hb hc =>
    refine ⟨hplaced, h.quarantined, fun x hx q o' h1 h2 h3 => ?_⟩
    rcases hd.passed h3 h2 with hlt | ⟨rfl, rfl⟩
    · exact Or.inl ((h.run r hr).all (by rw [ht]; rfl) (by rw [ht]; rfl) q o' h1 hlt h3)
    · -- the record consumed is decodable
      cases h3.unique ⟨value, hd.record, hv⟩
  | @append _ _ r next hr ht =>
    refine ⟨hplaced, h.quarantined, fun x hx p o h1 h2 h3 => ?_⟩
    exact Or.inl ((h.run r hr).all (by rw [ht]; rfl) (by rw [ht]; rfl) p o h1 h2 h3)
  | @commit _ _ r r' next _ hr ht hb hc hw =>
    have hall := (h.run r hr).all (by rw [ht]; rfl) (by rw [ht]; rfl)
    refine ⟨hplaced, fun p o h1 h2 h3 => ?_, fun x hx p o h1 h2 h3 => ?_⟩
    · rw [hw.acked]
      rcases hw.flushed (h.placed.run r hr) h2 with h2 | h2
      · exact h.quarantined p o h1 h2 h3
      · exact hall p o h1 h2 h3
    · rw [hw.acked]
      rw [hw.position] at h2
      exact Or.inl (hall p o h1 h2 h3)
  | @send _ _ r r' d p o e hr ht hb hc =>
    refine ⟨hplaced, h.quarantined, fun x hx q o' h1 h2 h3 => ?_⟩
    obtain rfl := Option.some.inj hx
    have hk := h.run r hr q o' h1 h2 h3
    rw [ht] at hk
    rw [hc]
    rcases hk with hh | hh | hh
    · exact Or.inl hh
    · exact Or.inr (Or.inl hh)
    · cases hh
  | @commitPast _ _ r r' p o _ hr ht hb hc hw =>
    have hacked : EnvelopeAcked w.acked p o := hok r hr (p, o) (by rw [ht]; rfl)
    have hall : ∀ q o', c₀ q ≤ o' → o' < w.position q → HasRecord A deserializer log false q o' →
        EnvelopeAcked w.acked q o' := by
      intro q o' h1 h2 h3
      rcases h.run r hr q o' h1 h2 h3 with hh | hh | hh
      · exact hh
      · rw [ht] at hh
        obtain ⟨rfl, rfl⟩ := Prod.mk.inj (Option.some.inj hh)
        exact hacked
      · rw [ht] at hh; cases hh
    refine ⟨hplaced, fun q o' h1 h2 h3 => ?_, fun x hx q o' h1 h2 h3 => ?_⟩
    · rw [hw.acked]
      rcases hw.passed (h.placed.run r hr) (by rw [ht]; rfl) h2 with h2 | ⟨-, h2⟩
      · exact h.quarantined q o' h1 h2 h3
      · exact hall q o' h1 h2 h3
    · rw [hw.acked]
      rw [hw.position] at h2
      exact Or.inl (hall q o' h1 h2 h3)
  | report ha _ _ =>
    refine ⟨hplaced, fun p o h1 h2 h3 => (h.quarantined p o h1 h2 h3).mono ha, fun x hx p o h1 h2 h3 => ?_⟩
    exact (h.run x hx p o h1 h2 h3).imp (fun hh => hh.mono ha) id

/-- **A commit before the ack** leaves an undecodable record below it without an acked envelope. -/
theorem not_quarantined_runStep (h : w.Safe A deserializer log c₀) {a : RunAct}
    (hok : ¬ w.AckedFirst (.run a)) :
    ¬ (w.runStep A deserializer st log a).Quarantined A deserializer log c₀ := by
  intro ha
  apply hok
  cases a with
  | go now assignment =>
    rintro r hr ⟨p, o⟩ hx
    have ht := Ctl.mem_past.1 hx
    obtain ⟨hfloor, -, hrec⟩ := (h.placed.run r hr).inHand p o (by rw [ht]; rfl)
    have hw := runStep_commitPast A deserializer st log hr ht now assignment
    rw [← hw.acked]
    refine ha p o hfloor ?_ hrec
    rw [hw.past, if_pos rfl]
    exact Nat.lt_succ_self o
  | _ => trivial

theorem safe_step (hok : w.AckedFirst a) (h : w.Safe A deserializer log c₀) :
    (w.step A deserializer st log a).Safe A deserializer log c₀ := by
  cases a with
  | start now now' =>
    rw [step]
    split
    · exact ⟨placed_start h.placed.floor now now', h.quarantined,
        fun x hx p o h1 h2 h3 => Or.inl (h.quarantined p o h1 h2 h3)⟩
    · exact h
  | run a => exact safe_runStep h hok (move_runStep A deserializer st log w a)
  | crash => exact ⟨⟨h.placed.floor, by simp [step]⟩, h.quarantined, by simp [step]⟩

end World

/-- **Durable quarantine, exactly.** From any committed offsets, every state of the runs of an archiver
has an acked envelope for each undecodable record below its committed offsets, exactly when each commit
past an undecodable record comes after the ack of its envelope. -/
theorem quarantine_durable_iff (c₀ : ℤ → ℕ) (table : List Row) (as : List World.Act) :
    (∀ bs, bs <+: as →
      (Trace.run (World.step A deserializer st log) (.init table c₀) bs).Quarantined A deserializer log c₀) ↔
      Trace.Along (World.step A deserializer st log) World.AckedFirst (.init table c₀) as := by
  refine Trace.forall_prefix_iff_along (I := World.Safe A deserializer log c₀) (fun _ _ => World.safe_step)
    (fun _ h => h.quarantined) (fun w a h hok => ?_) (World.safe_init table c₀)
  cases a with
  | run a => exact World.not_quarantined_runStep h hok
  | start | crash => exact absurd trivial hok

/-- A value without a schema id: its envelope is produced, its offset committed; then the process is
gone. -/
def crashBeforeAck : List World.Act :=
  [.start 0 0, .run (.poll (messageAt 0 []) 0 1 0), .run (.go 0 []), .run (.go 0 []), .crash]

/-- **The envelope is lost** with the process, and no run reads the record again. -/
theorem envelope_lost :
    ¬ (Trace.run (World.step (postsBronze asciiHost defaultSettings) postDeserializer defaultSettings
        (topicOf [[]])) (.init [] fun _ => 0) crashBeforeAck).Quarantined
        (postsBronze asciiHost defaultSettings) postDeserializer (topicOf [[]]) fun _ => 0 := by
  intro h
  exact absurd (h 0 0 (by decide) (by decide) ⟨some [], by decide, by decide⟩) (by decide)

end BlueskyTrends
