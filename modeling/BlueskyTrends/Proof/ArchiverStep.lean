import BlueskyTrends.Bronze.Archiver

/-!
# What an archiver's step does

`move_runStep`: the steps of a run, one constructor for each thing a run can do to the world or
to its batch. The proofs about archivers are case analyses of `Move` and unfold no step.
-/

namespace BlueskyTrends

variable {Row : Type} [KafkaRow Row]

/-! ## Decodable records -/

/-- The archiver decodes a record with this value. -/
def Archiver.accepts (A : Archiver Row) (deserializer : Deserializer) (value : Option Bytes) : Bool :=
  match A.decode (deserialize deserializer value) ⟨0, 0, 0⟩ with
  | .ok _ => true
  | .error _ => false

variable {A : Archiver Row} {deserializer : Deserializer} {st : BronzeSettings} {log : KafkaLog}

theorem Archiver.accepts_of_ok {value : Option Bytes} {base : RowBase} {row : Row}
    (h : A.decode (deserialize deserializer value) base = .ok row) :
    A.accepts deserializer value = true := by
  unfold Archiver.accepts
  cases hd : A.decode (deserialize deserializer value) ⟨0, 0, 0⟩ with
  | ok _ => rfl
  | error d => rw [A.reject hd base] at h; cases h

theorem Archiver.accepts_of_error {value : Option Bytes} {base : RowBase} {d : DlqRow}
    (h : A.decode (deserialize deserializer value) base = .error d) :
    A.accepts deserializer value = false := by
  unfold Archiver.accepts
  rw [A.reject h ⟨0, 0, 0⟩]

/-- The log holds a record there, which the archiver decodes (`ok`) or not. -/
def HasRecord (A : Archiver Row) (deserializer : Deserializer) (log : KafkaLog) (ok : Bool) (p : ℤ)
    (o : ℕ) : Prop :=
  ∃ value, log p o = some value ∧ A.accepts deserializer value = ok

theorem HasRecord.unique {ok ok' : Bool} {p : ℤ} {o : ℕ} (h : HasRecord A deserializer log ok p o)
    (h' : HasRecord A deserializer log ok' p o) : ok = ok' := by
  obtain ⟨v, hv, hok⟩ := h
  obtain ⟨v', hv', hok'⟩ := h'
  obtain rfl : v = v' := Option.some.inj (hv.symm.trans hv')
  exact hok.symm.trans hok'

/-! ## Control points -/

namespace Ctl

/-- The undecodable record in hand. -/
def inHand : Ctl → Option (ℤ × ℕ)
  | .send _ p o | .commitPast p o => some (p, o)
  | _ => none

/-- The commit of a flush is next. -/
def flushes : Ctl → Bool
  | .commit _ => true
  | _ => false

/-- The undecodable record whose commit is next. -/
def past : Ctl → Option (ℤ × ℕ)
  | .commitPast p o => some (p, o)
  | _ => none

theorem mem_past {c : Ctl} {x : ℤ × ℕ} : x ∈ c.past ↔ c = .commitPast x.1 x.2 := by
  cases c with
  | commitPast p o =>
    simp only [past, Option.mem_def, Option.some.injEq, commitPast.injEq]
    exact ⟨fun h => h ▸ ⟨rfl, rfl⟩, fun h => Prod.ext h.1 h.2⟩
  | _ => simp [past]

/-- No commit is next, and no undecodable record is in hand. -/
def calm : Ctl → Bool
  | .commit _ | .send _ _ _ | .commitPast _ _ => false
  | _ => true

theorem inHand_calm {c : Ctl} (h : c.calm = true) : c.inHand = none := by
  cases c <;> first | rfl | cases h

theorem flushes_calm {c : Ctl} (h : c.calm = true) : c.flushes = false := by
  cases c with
  | commit => cases h
  | _ => rfl

/-- The run is at no effect. -/
def resting : Ctl → Bool
  | .top | .idle | .closing _ | .done _ => true
  | _ => false

/-- Outside an iteration: the loop is at its head, or has been left. -/
def outside : Ctl → Bool
  | .top | .closing _ | .done _ => true
  | _ => false

/-- The run has raised. -/
def failed : Ctl → Bool
  | .closing false | .done false => true
  | _ => false

/-- The run has left its loop by itself. -/
def returning : Ctl → Bool
  | .closing true | .done true => true
  | _ => false

theorem not_returning {c : Ctl} (h : c.failed = true) : c.returning = false := by
  cases c with
  | closing returned => cases returned <;> trivial
  | done returned => cases returned <;> trivial
  | _ => rfl

end Ctl

theorem Next.calm (next : Next) : next.ctl.calm = true := by cases next <;> rfl

theorem Run.flush_ctl (r : Run Row) (next : Next) : (r.flush next).ctl.calm = true := by
  unfold Run.flush
  split
  · exact next.calm
  · rfl

/-- `flush()` leads to the `finally` block only with nothing held. -/
theorem Run.flush_returning {r : Run Row} {next : Next} (h : (r.flush next).ctl.returning = true) :
    r.batch.rows = [] := by
  unfold Run.flush at h
  split at h
  · exact List.isEmpty_iff.1 ‹_›
  · cases h

namespace World

/-- The world after a commit, one past each of `offsets`. -/
structure Committed (w : World Row) (offsets : List (ℤ × ℕ)) (r : Run Row) (w' : World Row) : Prop where
  run : w'.run = some r
  committed : ∀ q, w'.committed q = ((offsets.lookup q).map (· + 1)).getD (w.committed q)
  commits : w'.commits = w.commits ++ offsets.map fun x => (x.1, x.2 + 1)
  position : w'.position = w.position
  table : w'.table = w.table
  acked : w'.acked = w.acked

theorem lookup_commit (offsets : List (ℤ × ℕ)) (q : ℤ) :
    (offsets.map fun x => (x.1, x.2 + 1)).lookup q = (offsets.lookup q).map (· + 1) := by
  induction offsets with
  | nil => rfl
  | cons x l ih =>
    obtain ⟨p, o⟩ := x
    simp only [List.map_cons, List.lookup_cons, ih]
    cases q == p <;> rfl

theorem committed_apply (w : World Row) (offsets : List (ℤ × ℕ)) (r : Run Row) :
    Committed w offsets r { w.apply (some (commitEffect offsets)) with run := some r } where
  run := rfl
  committed := fun q => by simp only [apply, commitEffect, lookup_commit]
  commits := rfl
  position := rfl
  table := rfl
  acked := rfl

/-- The commit past one record. -/
theorem Committed.past {w w' : World Row} {r : Run Row} {p : ℤ} {o : ℕ}
    (h : Committed w [(p, o)] r w') (q : ℤ) :
    w'.committed q = if q = p then o + 1 else w.committed q := by
  rw [h.committed, List.lookup_cons]
  by_cases hq : q = p
  · subst hq; simp
  · have hbeq : (q == p) = false := by simpa using hq
    simp [hbeq, hq]

/-- The record at offset `o` of partition `p` is what the consumer delivers next. -/
structure Delivers (log : KafkaLog) (w : World Row) (p : ℤ) (o : ℕ) (value : Option Bytes) : Prop where
  record : log p o = some value
  le : w.position p ≤ o
  skipped : ∀ o' < o, w.position p ≤ o' → log p o' = none

/-- A record from the position on up to the one delivered is that one. -/
theorem Delivers.eq {w : World Row} {p : ℤ} {o o' : ℕ} {value : Option Bytes} {ok : Bool}
    (h : Delivers log w p o value) (hr : HasRecord A deserializer log ok p o') (hle : w.position p ≤ o')
    (hlt : o' < o + 1) : o' = o := by
  by_contra hne
  obtain ⟨v, hv, -⟩ := hr
  have := h.skipped o' (by omega) hle
  rw [this] at hv; cases hv

/-- The steps of a run. -/
inductive Move (A : Archiver Row) (deserializer : Deserializer) (log : KafkaLog) (w : World Row) :
    RunAct → World Row → Prop
  | stay {a : RunAct} : Move A deserializer log w a w
  /-- Nothing outside changes, and no row is added. -/
  | quiet {a : RunAct} {r r' : Run Row} (hr : w.run = some r) (hb : r'.batch = r.batch) (hc : r'.ctl.calm)
      (hbusy : r.ctl.calm = false ∨ r.ctl.failed → r'.ctl.failed)
      (hret : r'.ctl.returning → r.ctl.returning ∨ r.batch.rows = [])
      (happ : ∀ next, r'.ctl = .append next → r.batch.rows ≠ []) :
      Move A deserializer log w a { w with run := some r' }
  /-- An undecodable record is consumed. -/
  | reject {a : RunAct} {r r' : Run Row} {p : ℤ} {o : ℕ} {value : Option Bytes} {d : DlqRow}
      (hr : w.run = some r) (ht : r.ctl = .top) (hd : Delivers log w p o value)
      (hv : A.accepts deserializer value = false) (hb : r'.batch = r.batch)
      (hc : r'.ctl = .send d p o) :
      Move A deserializer log w a
        { w with run := some r', position := Function.update w.position p (o + 1) }
  /-- A decodable record is consumed into the batch. -/
  | accept {a : RunAct} {r r' : Run Row} {p : ℤ} {o : ℕ} {value : Option Bytes} {row : Row}
      (hr : w.run = some r) (ht : r.ctl = .top) (hd : Delivers log w p o value)
      (hv : A.accepts deserializer value = true) (hp : partitionOf row = p) (ho : offsetOf row = o)
      (hb : r'.batch = r.batch.add row) (hc : r'.ctl = .top ∨ r'.ctl = .append .top) :
      Move A deserializer log w a
        { w with run := some r', position := Function.update w.position p (o + 1) }
  | append {now : ℤ} {assignment : List ℤ} {r : Run Row} {next : Next} (hr : w.run = some r)
      (ht : r.ctl = .append next) : Move A deserializer log w (.go now assignment)
        { w with table := w.table ++ r.batch.rows, run := some { r with ctl := .commit next } }
  | commit {now : ℤ} {assignment : List ℤ} {r r' : Run Row} {next : Next} {w' : World Row}
      (hr : w.run = some r) (ht : r.ctl = .commit next) (hb : r'.batch = r.batch.clear)
      (hc : r'.ctl = next.ctl) (hw : Committed w r.batch.offsetItems r' w') :
      Move A deserializer log w (.go now assignment) w'
  | send {now : ℤ} {assignment : List ℤ} {r r' : Run Row} {d : DlqRow} {p : ℤ} {o : ℕ} {e : Envelope}
      (hr : w.run = some r) (ht : r.ctl = .send d p o) (hb : r'.batch = r.batch)
      (hc : r'.ctl = .commitPast p o) :
      Move A deserializer log w (.go now assignment)
        { w with inflight := w.inflight ++ [e], run := some r' }
  | commitPast {now : ℤ} {assignment : List ℤ} {r r' : Run Row} {p : ℤ} {o : ℕ} {w' : World Row}
      (hr : w.run = some r) (ht : r.ctl = .commitPast p o) (hb : r'.batch = r.batch) (hc : r'.ctl = .top)
      (hw : Committed w [(p, o)] r' w') : Move A deserializer log w (.go now assignment) w'
  | report {i : ℕ} {success : Bool} {inflight acked : List Envelope} (ha : w.acked ⊆ acked)
      (hi : inflight ⊆ w.inflight) (hk : acked ⊆ w.acked ++ w.inflight) :
      Move A deserializer log w (.report i success) { w with inflight := inflight, acked := acked }

/-- The loop on a data message. -/
theorem move_data {a : RunAct} {w : World Row} {r : Run Row} {p : ℤ} {o : ℕ} {value : Option Bytes}
    {now ts act : ℤ} (hr : w.run = some r) (ht : r.ctl = .top) (hd : Delivers log w p o value) :
    Move A deserializer log w a { w with
      run := some ({ r with lastActivity := act }.data A deserializer p o value now ts)
      position := Function.update w.position p (o + 1) } := by
  unfold Run.data
  cases hv : A.decode (deserialize deserializer value) ⟨p, o, ts⟩ with
  | error d => simp only; exact .reject hr ht hd (A.accepts_of_error hv) rfl rfl
  | ok row =>
    have hplace := A.place hv
    simp only
    have hp : partitionOf row = p := by unfold partitionOf; rw [hplace]
    have ho : offsetOf row = o := by unfold offsetOf; rw [hplace]
    refine .accept hr ht hd (A.accepts_of_ok hv) hp ho ?_ ?_
    · split <;> rfl
    · split
      · refine Or.inr ?_
        simp [Run.flush, Batch.isEmpty]
      · exact Or.inl rfl

/-- Leaving the head of the loop, or the stop check, without a record. -/
theorem move_calm {a : RunAct} {w : World Row} {r r' : Run Row} (hr : w.run = some r)
    (ht : r.ctl = .top ∨ r.ctl = .idle) (hb : r'.batch = r.batch)
    (hc : r'.ctl = .top ∨ r'.ctl = .idle ∨ r'.ctl = .closing false) :
    Move A deserializer log w a { w with run := some r' } := by
  refine .quiet hr hb ?_ ?_ ?_ ?_
  · rcases hc with hc | hc | hc <;> rw [hc] <;> rfl
  · rcases ht with ht | ht <;> rw [ht] <;> rintro (h | h) <;> cases h
  · rcases hc with hc | hc | hc <;> simp [hc, Ctl.returning]
  · rcases hc with hc | hc | hc <;> simp [hc]

theorem move_flush {a : RunAct} {w : World Row} {r : Run Row} (hr : w.run = some r)
    (ht : r.ctl = .top ∨ r.ctl = .idle) (next : Next) :
    Move A deserializer log w a { w with run := some (r.flush next) } := by
  refine .quiet hr rfl (r.flush_ctl next) ?_ (fun h => Or.inr (Run.flush_returning h)) fun n hn he => ?_
  · rcases ht with ht | ht <;> rw [ht] <;> rintro (h | h) <;> cases h
  · have hc := next.ctl
    simp only [Run.flush, Batch.isEmpty, he, List.isEmpty_nil, if_true] at hn
    cases next <;> cases hn

theorem move_poll {w : World Row} {r : Run Row} {msg : Option Msg} {now ts now' : ℤ} (hr : w.run = some r)
    (ht : r.ctl = .top) (hd : ∀ m ∈ msg, deliverable log w.position m) :
    Move A deserializer log w (.poll msg now ts now')
      { w with run := some (r.poll A deserializer msg now ts now'), position := advance w.position msg } := by
  match msg with
  | none =>
    simp only [Run.poll, advance]
    split
    · exact move_flush hr (Or.inl ht) _
    · exact move_calm hr (Or.inl ht) rfl (Or.inr (Or.inl rfl))
  | some ⟨some .partitionEof, some p, o, v⟩ => exact move_calm hr (Or.inl ht) rfl (Or.inl rfl)
  | some ⟨some .partitionEof, none, o, v⟩ => exact move_calm hr (Or.inl ht) rfl (Or.inr (Or.inr rfl))
  | some ⟨some .other, p, o, v⟩ => exact move_calm hr (Or.inl ht) rfl (Or.inr (Or.inr rfl))
  | some ⟨none, some p, some o, v⟩ =>
    obtain ⟨hle, hrec, hskip⟩ := hd _ rfl
    exact move_data hr ht ⟨hrec, hle, hskip⟩
  | some ⟨none, none, o, v⟩ => exact move_calm hr (Or.inl ht) rfl (Or.inl rfl)
  | some ⟨none, some p, none, v⟩ => exact move_calm hr (Or.inl ht) rfl (Or.inl rfl)

theorem move_go {w : World Row} {r : Run Row} {now : ℤ} {assignment : List ℤ} (hr : w.run = some r) :
    Move A deserializer log w (.go now assignment)
      { w.apply (r.go A st now assignment).2 with run := some (r.go A st now assignment).1 } := by
  unfold Run.go
  cases ht : r.ctl with
  | top =>
    simp only
    split
    · exact move_calm hr (Or.inl ht) rfl (Or.inl ht)
    · exact move_flush hr (Or.inl ht) _
  | append next => exact .append hr ht
  | commit next => refine .commit hr ht ?_ ?_ (committed_apply _ _ _) <;> rfl
  | idle =>
    simp only
    split
    · exact move_flush hr (Or.inr ht) _
    · exact move_calm hr (Or.inr ht) rfl (Or.inl rfl)
  | send d p o => exact .send hr ht rfl rfl
  | commitPast p o => refine .commitPast hr ht ?_ ?_ (committed_apply _ _ _) <;> rfl
  | closing returned =>
    refine .quiet hr rfl rfl ?_ ?_ (by simp) <;> rw [ht] <;> cases returned <;>
      simp [Ctl.calm, Ctl.failed, Ctl.returning]
  | done returned =>
    refine .quiet hr rfl ?_ ?_ ?_ ?_ <;> rw [ht] <;> cases returned <;>
      simp [Ctl.calm, Ctl.failed, Ctl.returning]

/-- The commit of a flush. -/
theorem runStep_commit (A : Archiver Row) (deserializer : Deserializer) (st : BronzeSettings)
    (log : KafkaLog) {w : World Row} {r : Run Row} {next : Next} (hr : w.run = some r)
    (ht : r.ctl = .commit next) (now : ℤ) (assignment : List ℤ) :
    (w.runStep A deserializer st log (.go now assignment)).commits =
      w.commits ++ r.batch.offsetItems.map fun x => (x.1, x.2 + 1) := by
  simp only [runStep, hr, Run.go, ht]
  rfl

/-- The commit past an undecodable record. -/
theorem runStep_commitPast (A : Archiver Row) (deserializer : Deserializer) (st : BronzeSettings)
    (log : KafkaLog) {w : World Row} {r : Run Row} {p : ℤ} {o : ℕ} (hr : w.run = some r)
    (ht : r.ctl = .commitPast p o) (now : ℤ) (assignment : List ℤ) :
    Committed w [(p, o)] { r with ctl := .top } (w.runStep A deserializer st log (.go now assignment)) := by
  have hgo : r.go A st now assignment = ({ r with ctl := .top }, some (commitEffect [(p, o)])) := by
    simp only [Run.go, ht]
  simp only [runStep, hr, hgo]
  exact committed_apply w [(p, o)] _

theorem raise_ctl (r : Run Row) :
    r.raise.batch = r.batch ∧ r.raise.ctl.calm = true ∧ r.raise.ctl.failed = true := by
  unfold Run.raise
  split <;> exact ⟨rfl, rfl, rfl⟩

/-- A report changes neither the run nor the table. -/
theorem report_frame (w : World Row) (i : ℕ) (success : Bool) :
    (w.report i success).run = w.run ∧ (w.report i success).table = w.table := by
  unfold World.report
  split
  · exact ⟨rfl, rfl⟩
  · exact ⟨rfl, rfl⟩

/-- **What a step of a run can do.** -/
theorem move_runStep (A : Archiver Row) (deserializer : Deserializer) (st : BronzeSettings)
    (log : KafkaLog) (w : World Row) (a : RunAct) :
    Move A deserializer log w a (w.runStep A deserializer st log a) := by
  unfold runStep
  cases a with
  | poll msg now ts now' =>
    simp only
    split
    · rename_i r hr
      split
      · rename_i h; exact move_poll hr h.1 h.2.2
      · exact .stay
    · exact .stay
  | go now assignment =>
    simp only
    split
    · rename_i r hr; exact move_go hr
    · exact .stay
  | raise =>
    simp only
    split
    · rename_i r hr
      obtain ⟨hb, hc, hf⟩ := raise_ctl r
      refine .quiet hr hb hc (fun _ => hf) (fun h => ?_) fun next h => ?_
      · rw [Ctl.not_returning hf] at h; cases h
      · rw [h] at hf; cases hf
    · exact .stay
  | report i success =>
    simp only [report]
    split
    · rename_i e he
      have hmem := List.mem_of_getElem? he
      refine .report ?_ (List.eraseIdx_subset) ?_
      · split
        · exact List.subset_append_left _ _
        · exact List.Subset.refl _
      · split
        · exact List.append_subset.2 ⟨List.subset_append_left _ _, by simp [hmem]⟩
        · exact List.subset_append_left _ _
    · exact .stay

/-- A step of a run with the deserializer of the moment: whether a record decodes may change. -/
def stepWith (A : Archiver Row) (st : BronzeSettings) (log : KafkaLog) (w : World Row)
    (x : Deserializer × RunAct) : World Row := w.runStep A x.1 st log x.2

/-! ## Places -/

/-- The rows held and the record in hand are of records the run has passed, from the offsets `c₀` on. -/
structure RunPlaced (A : Archiver Row) (deserializer : Deserializer) (log : KafkaLog)
    (c₀ position : ℤ → ℕ) (r : Run Row) : Prop where
  floor : ∀ p, c₀ p ≤ position p
  rows : ∀ row ∈ r.batch.rows,
    c₀ (partitionOf row) ≤ offsetOf row ∧ offsetOf row < position (partitionOf row) ∧
    HasRecord A deserializer log true (partitionOf row) (offsetOf row)
  inHand : ∀ p o, r.ctl.inHand = some (p, o) →
    c₀ p ≤ o ∧ position p = o + 1 ∧ HasRecord A deserializer log false p o

structure Placed (A : Archiver Row) (deserializer : Deserializer) (log : KafkaLog) (c₀ : ℤ → ℕ)
    (w : World Row) :
    Prop where
  floor : ∀ p, c₀ p ≤ w.committed p
  run : ∀ r, w.run = some r → RunPlaced A deserializer log c₀ w.position r

variable {c₀ position : ℤ → ℕ} {w w' : World Row} {r r' : Run Row} {p : ℤ} {o : ℕ}

theorem RunPlaced.calm (h : RunPlaced A deserializer log c₀ position r)
    (hb : r'.batch.rows ⊆ r.batch.rows) (hc : r'.ctl.calm) :
    RunPlaced A deserializer log c₀ position r' where
  floor := h.floor
  rows := fun row hrow => h.rows row (hb hrow)
  inHand := by rw [Ctl.inHand_calm hc]; simp

theorem RunPlaced.lookup (h : RunPlaced A deserializer log c₀ position r) {m : ℕ}
    (hm : r.batch.offsets.lookup p = some m) : c₀ p ≤ m ∧ m < position p := by
  obtain ⟨row, hrow, rfl, rfl⟩ := r.batch.held p m hm
  exact ⟨(h.rows row hrow).1, (h.rows row hrow).2.1⟩

/-- An offset below those a flush commits was so before, or the run has passed it. -/
theorem Committed.flushed (hw : Committed w r.batch.offsetItems r' w')
    (hk : RunPlaced A deserializer log c₀ w.position r) (h : o < w'.committed p) :
    o < w.committed p ∨ o < w.position p := by
  rw [hw.committed, Batch.lookup_offsetItems] at h
  cases hm : r.batch.offsets.lookup p with
  | none =>
    rw [hm] at h
    exact Or.inl h
  | some m =>
    rw [hm] at h
    have hlt := (hk.lookup hm).2
    exact Or.inr (lt_of_lt_of_le h hlt)

/-- The same of the commit past the record in hand. -/
theorem Committed.passed {q : ℤ} {o' : ℕ} (hw : Committed w [(p, o)] r' w')
    (hk : RunPlaced A deserializer log c₀ w.position r) (ht : r.ctl.inHand = some (p, o))
    (h : o' < w'.committed q) : o' < w.committed q ∨ q = p ∧ o' < w.position q := by
  obtain ⟨-, hpos, -⟩ := hk.inHand p o ht
  rw [hw.past] at h
  by_cases hq : q = p
  · subst hq
    rw [if_pos rfl, ← hpos] at h
    exact Or.inr ⟨rfl, h⟩
  · rw [if_neg hq] at h
    exact Or.inl h

theorem le_update (hle : position p ≤ o) (q : ℤ) : position q ≤ Function.update position p (o + 1) q := by
  by_cases hq : q = p
  · subst hq; rw [Function.update_self]; omega
  · rw [Function.update_of_ne hq]

/-- What was passed before a record is consumed, or is that record. -/
theorem Delivers.passed {value : Option Bytes} {ok : Bool} {q : ℤ} {o' : ℕ}
    (hd : Delivers log w p o value) (hr : HasRecord A deserializer log ok q o')
    (hlt : o' < Function.update w.position p (o + 1) q) :
    o' < w.position q ∨ q = p ∧ o' = o := by
  by_cases h : o' < w.position q
  · exact Or.inl h
  · by_cases hq : q = p
    · subst hq
      rw [Function.update_self] at hlt
      exact Or.inr ⟨rfl, hd.eq hr (not_lt.1 h) hlt⟩
    · rw [Function.update_of_ne hq] at hlt
      exact absurd hlt h

/-- **Places are kept**, whatever a run does. -/
theorem placed_move (h : w.Placed A deserializer log c₀) {a : RunAct}
    (hm : Move A deserializer log w a w') :
    w'.Placed A deserializer log c₀ := by
  cases hm with
  | stay => exact h
  | quiet hr hb hc =>
    refine ⟨h.floor, fun x hx => ?_⟩
    obtain rfl := Option.some.inj hx
    exact (h.run _ hr).calm (by rw [hb]; exact List.Subset.refl _) hc
  | @reject _ r r' p o value d hr _ hd hv hb hc =>
    have hk := h.run r hr
    refine ⟨h.floor, fun x hx => ?_⟩
    obtain rfl := Option.some.inj hx
    refine ⟨fun q => (hk.floor q).trans (le_update hd.le q), fun row hrow => ?_, fun q o' hq => ?_⟩
    · obtain ⟨h1, h2, h3⟩ := hk.rows row (hb ▸ hrow)
      exact ⟨h1, h2.trans_le (le_update hd.le _), h3⟩
    · rw [hc] at hq
      obtain ⟨rfl, rfl⟩ := Prod.mk.inj (Option.some.inj hq)
      exact ⟨(hk.floor p).trans hd.le, Function.update_self .., value, hd.record, hv⟩
  | @accept _ r r' p o value row hr _ hd hv hp ho hb hc =>
    have hk := h.run r hr
    refine ⟨h.floor, fun x hx => ?_⟩
    obtain rfl := Option.some.inj hx
    refine ⟨fun q => (hk.floor q).trans (le_update hd.le q), fun x hx => ?_, ?_⟩
    · rw [hb, Batch.add_rows] at hx
      rcases List.mem_append.1 hx with hx | hx
      · obtain ⟨h1, h2, h3⟩ := hk.rows x hx
        exact ⟨h1, h2.trans_le (le_update hd.le _), h3⟩
      · obtain rfl := List.mem_singleton.1 hx
        rw [hp, ho]
        have hself : Function.update w.position p (o + 1) p = o + 1 := Function.update_self ..
        exact ⟨(hk.floor p).trans hd.le, hself.symm.le.trans_lt' (Nat.lt_succ_self o), value, hd.record, hv⟩
    · rcases hc with hc | hc <;> simp [hc, Ctl.inHand]
  | @append _ _ r next hr ht =>
    refine ⟨h.floor, fun x hx => ?_⟩
    obtain rfl := Option.some.inj hx
    exact ⟨(h.run r hr).floor, (h.run r hr).rows, by simp [Ctl.inHand]⟩
  | @commit _ _ r r' next _ hr ht hb hc hw =>
    have hk := h.run r hr
    refine ⟨fun q => ?_, fun x hx => ?_⟩
    · rw [hw.committed, Batch.lookup_offsetItems]
      cases hm : r.batch.offsets.lookup q with
      | none => exact h.floor q
      | some m => exact (hk.lookup hm).1.trans (Nat.le_succ m)
    · obtain rfl := Option.some.inj (hw.run.symm.trans hx)
      rw [hw.position]
      exact hk.calm (by simp [hb]) (by rw [hc]; exact next.calm)
  | @send _ _ r r' d p o e hr ht hb hc =>
    have hk := h.run r hr
    refine ⟨h.floor, fun x hx => ?_⟩
    obtain rfl := Option.some.inj hx
    refine ⟨hk.floor, by rw [hb]; exact hk.rows, ?_⟩
    have := hk.inHand
    rw [ht] at this
    rw [hc]; exact this
  | @commitPast _ _ r r' p o _ hr ht hb hc hw =>
    have hk := h.run r hr
    refine ⟨fun q => ?_, fun x hx => ?_⟩
    · rw [hw.past]
      split
      · subst q; exact (hk.inHand p o (by rw [ht]; rfl)).1.trans (Nat.le_succ o)
      · exact h.floor q
    · obtain rfl := Option.some.inj (hw.run.symm.trans hx)
      rw [hw.position]
      exact hk.calm (by rw [hb]; exact List.Subset.refl _) (by rw [hc]; rfl)
  | report => exact ⟨h.floor, h.run⟩

theorem placed_start (h : ∀ p, c₀ p ≤ w.committed p) (now now' : ℤ) :
    (w.start st now now').Placed A deserializer log c₀ where
  floor := h
  run := fun x hx => by
    obtain rfl := Option.some.inj hx
    exact ⟨h, by simp [Run.init, Batch.init], by simp [Run.init, Ctl.inHand]⟩

theorem placed_init (table : List Row) (c₀ : ℤ → ℕ) : (init table c₀).Placed A deserializer log c₀ :=
  ⟨fun _ => le_rfl, by simp [init]⟩

end World

/-! ## What a poll result brings -/

/-- A data message the loop has taken: its place, and what decoding it gave. -/
structure Taken (Row : Type) where
  partition : ℤ
  offset : ℕ
  outcome : Except DlqRow Row

/-- The data message of a poll result, decoded with the stamp `ts`. -/
def taken (A : Archiver Row) (deserializer : Deserializer) (ts : ℤ) : Option Msg → List (Taken Row)
  | some ⟨none, some p, some o, value⟩ => [⟨p, o, A.decode (deserialize deserializer value) ⟨p, o, ts⟩⟩]
  | _ => []

namespace Run

/-- What the loop does with a poll result. -/
inductive Polled (r : Run Row) : List (Taken Row) → Run Row → Prop
  /-- Nothing is taken. The batch is flushed only if it holds a row. -/
  | quiet {r' : Run Row} (hb : r'.batch = r.batch) (ha : r'.archived = r.archived)
      (hc : r'.ctl = .top ∨ r'.ctl = .idle ∨ r'.ctl = .closing false ∨ r'.ctl = .append .idle) :
      Polled r [] r'
  | reject {r' : Run Row} {p : ℤ} {o : ℕ} {d : DlqRow} (hb : r'.batch = r.batch)
      (ha : r'.archived = r.archived) (hc : r'.ctl = .send d p o) : Polled r [⟨p, o, .error d⟩] r'
  /-- The loop goes on only with a batch below its row bound. -/
  | accept {r' : Run Row} {p : ℤ} {o : ℕ} {row : Row} (hb : r'.batch = r.batch.add row)
      (ha : r'.archived = r.archived)
      (hc : r'.ctl = .append .top ∨ r'.ctl = .top ∧ (r.batch.rows.length : ℤ) + 1 < r.batch.maxRows) :
      Polled r [⟨p, o, .ok row⟩] r'

theorem flush_of_shouldFlush {r : Run Row} {elapsed : ℤ} (h : r.batch.shouldFlush elapsed = true)
    (next : Next) : (r.flush next).ctl = .append next := by
  unfold flush
  cases hempty : r.batch.isEmpty with
  | true => simp [Batch.shouldFlush, hempty] at h
  | false => rfl

theorem polled_data (r : Run Row) (p : ℤ) (o : ℕ) (value : Option Bytes) (now ts act : ℤ) :
    Polled r [⟨p, o, A.decode (deserialize deserializer value) ⟨p, o, ts⟩⟩]
      ({ r with lastActivity := act }.data A deserializer p o value now ts) := by
  unfold Run.data
  cases A.decode (deserialize deserializer value) ⟨p, o, ts⟩ with
  | error d => exact .reject rfl rfl rfl
  | ok row =>
    simp only
    split
    · rename_i hfull
      exact .accept rfl rfl (Or.inl (flush_of_shouldFlush hfull .top))
    · rename_i hroom
      refine .accept rfl rfl (Or.inr ⟨rfl, ?_⟩)
      simp [Batch.shouldFlush, Batch.isEmpty] at hroom
      have hmax : (r.batch.add row).maxRows = r.batch.maxRows := rfl
      omega

variable (A deserializer) in
/-- **What a poll result brings.** -/
theorem polled_poll (r : Run Row) (msg : Option Msg) (now ts now' : ℤ) :
    Polled r (taken A deserializer ts msg) (r.poll A deserializer msg now ts now') := by
  match msg with
  | none =>
    simp only [Run.poll, taken]
    split
    · rename_i hfull
      exact .quiet rfl rfl (Or.inr (Or.inr (Or.inr (flush_of_shouldFlush hfull .idle))))
    · exact .quiet rfl rfl (Or.inr (Or.inl rfl))
  | some ⟨some .partitionEof, some p, o, v⟩ => exact .quiet rfl rfl (Or.inl rfl)
  | some ⟨some .partitionEof, none, o, v⟩ => exact .quiet rfl rfl (Or.inr (Or.inr (Or.inl rfl)))
  | some ⟨some .other, p, o, v⟩ => exact .quiet rfl rfl (Or.inr (Or.inr (Or.inl rfl)))
  | some ⟨none, none, o, v⟩ => exact .quiet rfl rfl (Or.inl rfl)
  | some ⟨none, some p, none, v⟩ => exact .quiet rfl rfl (Or.inl rfl)
  | some ⟨none, some p, some o, v⟩ => exact polled_data r p o v now' ts now

end Run

/-! ## A concrete topic -/

/-- A post in the Confluent wire format: magic byte and schema id, then did, rkey and cid, `created_at`
0, the text and three nulls. -/
def postBytes : Bytes := [0, 0, 0, 0, 1, 2, 100, 2, 114, 2, 99, 0, 2, 116, 0, 0, 0]

/-- The Avro deserializer on `postBytes`, on a tombstone and on values without a schema id. -/
def postDeserializer : Deserializer
  | none => some .null
  | some bytes =>
    if bytes = postBytes then
      some (.dict [("did", .str "d"), ("rkey", .str "r"), ("cid", .str "c"),
        ("created_at", .datetime ⟨0, some 0⟩),
        ("text", .str "t"), ("langs", .null), ("reply_parent", .null), ("reply_root", .null)])
    else none

/-- One partition with the given values. -/
def topicOf (values : List Bytes) : KafkaLog := fun p o => if p = 0 then (values[o]?).map some else none

/-- The data message at offset `o` of `topicOf`. -/
def messageAt (o : ℕ) (bytes : Bytes) : Option Msg := some ⟨none, some 0, some o, some bytes⟩

/-- The default settings. -/
def defaultSettings : BronzeSettings :=
  ⟨"bsky.posts.v1", "bsky.likes.v1", "bsky.follows.v1", 10000, 5000000000, 500000⟩

end BlueskyTrends
