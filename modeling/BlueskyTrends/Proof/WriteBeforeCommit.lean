import BlueskyTrends.Proof.ArchiverStep

/-!
# Write before commit

`write_before_commit_iff`: in every state of a sequence of runs, with crashes anywhere, all
decodable records below the committed offsets are in the table, exactly when each commit past
an undecodable record finds the rows held of its partition in the table already.
-/

namespace BlueskyTrends

variable {Row : Type} [KafkaRow Row] {A : Archiver Row} {deserializer : Deserializer} {st : BronzeSettings}
  {log : KafkaLog} {c₀ position : ℤ → ℕ} {table : List Row} {w w' : World Row} {r r' : Run Row} {p : ℤ}
  {o : ℕ} {a : World.Act}

/-- The table holds a row of the record. -/
def InTable (table : List Row) (p : ℤ) (o : ℕ) : Prop :=
  ∃ row ∈ table, partitionOf row = p ∧ offsetOf row = o

instance (table : List Row) (p : ℤ) (o : ℕ) : Decidable (InTable table p o) := by
  unfold InTable; infer_instance

theorem InTable.append (h : InTable table p o) (rows : List Row) : InTable (table ++ rows) p o :=
  h.imp fun _ hr => ⟨List.mem_append_left _ hr.1, hr.2⟩

namespace World

/-- The decodable records from the offsets `c₀` up to the committed ones are in the table. -/
def Archived (A : Archiver Row) (deserializer : Deserializer) (log : KafkaLog) (c₀ : ℤ → ℕ)
    (w : World Row) : Prop :=
  ∀ p o, c₀ p ≤ o → o < w.committed p → HasRecord A deserializer log true p o → InTable w.table p o

/-- A commit past an undecodable record finds the rows held of its partition in the table. -/
def HeldRowsWritten (w : World Row) : Act → Prop
  | .run (.go _ _) => ∀ r ∈ w.run, ∀ x ∈ r.ctl.past, ∀ row ∈ r.batch.rows, partitionOf row = x.1 →
      InTable w.table x.1 (offsetOf row)
  | _ => True

instance (w : World Row) : ∀ a, Decidable (w.HeldRowsWritten a)
  | .run (.go _ _) => inferInstanceAs (Decidable (∀ r ∈ w.run, ∀ x ∈ r.ctl.past, ∀ row ∈ r.batch.rows,
      partitionOf row = x.1 → InTable w.table x.1 (offsetOf row)))
  | .run (.poll ..) | .run .raise | .run (.report ..) | .start .. | .crash => isTrue trivial

/-- What a run keeps: the decodable records it has passed are in the table or held, and those held
are in the table once appended. -/
structure RunKept (A : Archiver Row) (deserializer : Deserializer) (log : KafkaLog) (c₀ position : ℤ → ℕ)
    (table : List Row) (r : Run Row) : Prop where
  passed : ∀ p o, c₀ p ≤ o → o < position p → HasRecord A deserializer log true p o →
    InTable table p o ∨ InTable r.batch.rows p o
  written : ∀ next, r.ctl = .commit next → ∀ row ∈ r.batch.rows, row ∈ table

structure Kept (A : Archiver Row) (deserializer : Deserializer) (log : KafkaLog) (c₀ : ℤ → ℕ)
    (w : World Row) :
    Prop where
  placed : w.Placed A deserializer log c₀
  archived : w.Archived A deserializer log c₀
  run : ∀ r, w.run = some r → RunKept A deserializer log c₀ w.position w.table r

theorem kept_init (table : List Row) (c₀ : ℤ → ℕ) : (init table c₀).Kept A deserializer log c₀ where
  placed := placed_init table c₀
  archived := fun p o h1 h2 => absurd (show o < c₀ p from h2) (not_lt.2 h1)
  run := by simp [init]

theorem RunKept.calm (h : RunKept A deserializer log c₀ position table r) (hb : r'.batch = r.batch)
    (hc : r'.ctl.calm) : RunKept A deserializer log c₀ position table r' where
  passed := by rw [hb]; exact h.passed
  written := by rintro next hn; rw [hn] at hc; cases hc

/-- With nothing held unwritten, all that the run has passed is in the table. -/
theorem RunKept.all (h : RunKept A deserializer log c₀ position table r) {next : Next}
    (ht : r.ctl = .commit next) :
    ∀ p o, c₀ p ≤ o → o < position p → HasRecord A deserializer log true p o → InTable table p o := by
  intro p o h1 h2 h3
  rcases h.passed p o h1 h2 h3 with hh | ⟨row, hrow, hp⟩
  · exact hh
  · exact ⟨row, h.written next ht row hrow, hp⟩

/-- **A step of a run keeps what is archived**, if a commit past an undecodable record leaves no
row of its partition behind. -/
theorem kept_runStep (h : w.Kept A deserializer log c₀) {a : RunAct} (hok : w.HeldRowsWritten (.run a))
    (hm : Move A deserializer log w a w') : w'.Kept A deserializer log c₀ := by
  have hplaced := placed_move h.placed hm
  cases hm with
  | stay => exact h
  | quiet hr hb hc =>
    refine ⟨hplaced, h.archived, fun x hx => ?_⟩
    obtain rfl := Option.some.inj hx
    exact (h.run _ hr).calm hb hc
  | @reject _ r r' p o value d hr _ hd hv hb hc =>
    refine ⟨hplaced, h.archived, fun x hx => ?_⟩
    obtain rfl := Option.some.inj hx
    refine ⟨fun q o' h1 h2 h3 => ?_, by simp [hc]⟩
    rcases hd.passed h3 h2 with hlt | ⟨rfl, rfl⟩
    · rw [hb]; exact (h.run r hr).passed q o' h1 hlt h3
    · -- the record consumed is not decodable
      cases h3.unique ⟨value, hd.record, hv⟩
  | @accept _ r r' p o value row hr _ hd hv hp ho hb hc =>
    refine ⟨hplaced, h.archived, fun x hx => ?_⟩
    obtain rfl := Option.some.inj hx
    refine ⟨fun q o' h1 h2 h3 => ?_, by rcases hc with hc | hc <;> simp [hc]⟩
    rw [hb]
    rcases hd.passed h3 h2 with hlt | ⟨rfl, rfl⟩
    · exact ((h.run r hr).passed q o' h1 hlt h3).imp id fun hh => hh.append _
    · exact Or.inr ⟨row, by simp, hp, ho⟩
  | @append _ _ r next hr ht =>
    have hk := h.run r hr
    refine ⟨hplaced, fun p o h1 h2 h3 => (h.archived p o h1 h2 h3).append _, fun x hx => ?_⟩
    obtain rfl := Option.some.inj hx
    exact ⟨fun p o h1 h2 h3 => (hk.passed p o h1 h2 h3).imp (fun hh => hh.append _) id,
      fun _ _ row hrow => List.mem_append_right _ hrow⟩
  | @commit _ _ r r' next _ hr ht hb hc hw =>
    have hall := (h.run r hr).all ht
    refine ⟨hplaced, fun p o h1 h2 h3 => ?_, fun x hx => ?_⟩
    · rw [hw.table]
      rcases hw.flushed (h.placed.run r hr) h2 with h2 | h2
      · exact h.archived p o h1 h2 h3
      · exact hall p o h1 h2 h3
    · obtain rfl := Option.some.inj (hw.run.symm.trans hx)
      rw [hw.position, hw.table]
      exact ⟨fun p o h1 h2 h3 => Or.inl (hall p o h1 h2 h3),
        by rw [hc]; intro _ hn; exact absurd (hn ▸ next.calm) (by simp [Ctl.calm])⟩
  | @send _ _ r r' d p o e hr ht hb hc =>
    refine ⟨hplaced, h.archived, fun x hx => ?_⟩
    obtain rfl := Option.some.inj hx
    exact ⟨by rw [hb]; exact (h.run r hr).passed, by simp [hc]⟩
  | @commitPast _ _ r r' p o _ hr ht hb hc hw =>
    have hk := h.run r hr
    have hheld := hok r hr (p, o) (by rw [ht]; rfl)
    refine ⟨hplaced, fun q o' h1 h2 h3 => ?_, fun x hx => ?_⟩
    · rw [hw.table]
      rcases hw.passed (h.placed.run r hr) (by rw [ht]; rfl) h2 with h2 | ⟨rfl, h2⟩
      · exact h.archived q o' h1 h2 h3
      · rcases hk.passed q o' h1 h2 h3 with hh | ⟨row, hrow, hp, rfl⟩
        · exact hh
        · exact hheld row hrow hp
    · obtain rfl := Option.some.inj (hw.run.symm.trans hx)
      rw [hw.position, hw.table]
      exact hk.calm hb (by rw [hc]; rfl)
  | report => exact ⟨hplaced, h.archived, h.run⟩

/-- **A commit that leaves a held row behind** passes a record that is not in the table. -/
theorem not_archived_runStep (h : w.Kept A deserializer log c₀) {a : RunAct}
    (hok : ¬ w.HeldRowsWritten (.run a)) :
    ¬ (w.runStep A deserializer st log a).Archived A deserializer log c₀ := by
  intro ha
  apply hok
  cases a with
  | go now assignment =>
    rintro r hr ⟨p, o⟩ hx row hrow hp
    have ht := Ctl.mem_past.1 hx
    have hp : partitionOf row = p := hp
    obtain ⟨-, hpos, -⟩ := (h.placed.run r hr).inHand p o (by rw [ht]; rfl)
    obtain ⟨hfloor, hlt, hrec⟩ := (h.placed.run r hr).rows row hrow
    rw [hp] at hfloor hlt hrec
    have hw := runStep_commitPast A deserializer st log hr ht now assignment
    rw [← hw.table]
    refine ha p (offsetOf row) hfloor ?_ hrec
    rw [hw.past, if_pos rfl, ← hpos]
    exact hlt
  | _ => trivial

theorem kept_step (hok : w.HeldRowsWritten a) (h : w.Kept A deserializer log c₀) :
    (w.step A deserializer st log a).Kept A deserializer log c₀ := by
  cases a with
  | start now now' =>
    rw [step]
    split
    · refine ⟨placed_start h.placed.floor now now', h.archived, fun x hx => ?_⟩
      obtain rfl := Option.some.inj hx
      exact ⟨fun p o h1 h2 h3 => Or.inl (h.archived p o h1 h2 h3), by simp [Run.init]⟩
    · exact h
  | run a => exact kept_runStep h hok (move_runStep A deserializer st log w a)
  | crash => exact ⟨⟨h.placed.floor, by simp [step]⟩, h.archived, by simp [step]⟩

end World

/-- **Write before commit, exactly.** From any committed offsets and any table, every state of the
runs of an archiver has the decodable records below its committed offsets in the table, exactly when
each commit past an undecodable record finds the held rows of its partition in the table. -/
theorem write_before_commit_iff (c₀ : ℤ → ℕ) (table : List Row) (as : List World.Act) :
    (∀ bs, bs <+: as →
      (Trace.run (World.step A deserializer st log) (.init table c₀) bs).Archived A deserializer log c₀) ↔
      Trace.Along (World.step A deserializer st log) World.HeldRowsWritten (.init table c₀) as := by
  refine Trace.forall_prefix_iff_along (I := World.Kept A deserializer log c₀) (fun _ _ => World.kept_step)
    (fun _ h => h.archived) (fun w a h hok => ?_) (World.kept_init table c₀)
  cases a with
  | run a => exact World.not_archived_runStep h hok
  | start | crash => exact absurd trivial hok

/-- A post, then a value without a schema id: the first is held, the second quarantined and its offset
committed; then the process is gone. -/
def quarantineWhileHolding : List World.Act :=
  [.start 0 0, .run (.poll (messageAt 0 postBytes) 0 1 0), .run (.poll (messageAt 1 []) 0 2 0), .run (.go 0 []),
    .run (.go 0 []), .crash]

/-- **A held post is lost**: its offset is committed and the table is empty. -/
theorem held_post_lost :
    ¬ (Trace.run (World.step (postsBronze asciiHost defaultSettings) postDeserializer defaultSettings
        (topicOf [postBytes, []])) (.init [] fun _ => 0) quarantineWhileHolding).Archived
        (postsBronze asciiHost defaultSettings) postDeserializer (topicOf [postBytes, []]) fun _ => 0 := by
  intro h
  exact absurd (h 0 0 (by decide) (by decide) ⟨some postBytes, by decide, by decide⟩) (by decide)

end BlueskyTrends
