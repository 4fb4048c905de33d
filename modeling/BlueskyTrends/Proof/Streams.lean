import BlueskyTrends.Ingest.CursorStore

/-!
# Streams do not disturb each other

Services that share the cursor table, stepping in any order, each make the run they would make
alone: what one stores, loads, receives and acks does not depend on the others.

* `stored_step`: a step stores what it writes.
* `streams_independent`: **each service makes the run of its own steps**.
-/

namespace BlueskyTrends

variable {H : Host} {st : IngestSettings} {log : SourceLog}

/-- **A step stores what it writes**, and else keeps the cursor. -/
theorem Service.stored_step (s : Service) (a : Service.Act) :
    (s.step H st log a).stored = ((s.writes st a).elim s.stored some : Option ℤ) := by
  have hor : ∀ o : Option ℤ, o.or s.stored = (o.elim s.stored some : Option ℤ) := by
    intro o
    cases o with
    | none => rfl
    | some v => rfl
  have hm := Service.move_step H st log s a
  generalize s.step H st log a = s' at hm ⊢
  cases hm with
  | @stay a ha =>
    -- a step that is none writes nothing: a call needs a life
    cases hl : s.life with
    | none =>
      cases a with
      | raise applied => cases applied <;> simp [Service.writes, hl]
      | _ => simp [Service.writes, hl]
    | some l =>
      have hproceeds := ha (by simp [hl])
      cases a with
      | call | raise | report => cases hproceeds
      | _ => rfl
  | call hl =>
    simp only [Service.writes, hl, Option.bind_some]
    exact hor _
  | @raise l applied hl =>
    cases applied with
    | true =>
      simp only [Service.writes, hl, Option.bind_some, if_true]
      exact hor _
    | false => rfl
  | boot | crash | connect | drop | recv | stop | report => rfl

namespace Fleet

variable {sts : String → IngestSettings} {logs : String → SourceLog}

/-- A service sees its own step as if it were alone. -/
theorem view_own (f : Fleet) (name : String) (a : Service.Act) :
    (f.step H sts logs (name, a)).view name = (f.view name).step H (sts name) (logs name) a := by
  have hstored : ((f.view name).step H (sts name) (logs name) a).stored = _ :=
    (f.view name).stored_step a
  have hload : (f.step H sts logs (name, a)).table.load name =
      ((f.view name).step H (sts name) (logs name) a).stored := by
    rw [hstored, step]
    cases (f.view name).writes (sts name) a with
    | none => rfl
    | some v =>
      change (f.table.save name v).load name = some v
      rw [CursorTable.load_save, if_pos rfl]
  unfold view
  rw [hload]
  simp only [step, Function.update_self]
  rfl

/-- It does not see the steps of another. -/
theorem view_other (f : Fleet) {name other : String} (hne : other ≠ name) (a : Service.Act) :
    (f.step H sts logs (name, a)).view other = f.view other := by
  have hload : (f.step H sts logs (name, a)).table.load other = f.table.load other := by
    rw [step]
    cases (f.view name).writes (sts name) a with
    | none => rfl
    | some v =>
      change (f.table.save name v).load other = _
      rw [CursorTable.load_save, if_neg hne]
  unfold view
  rw [hload]
  simp only [step, Function.update_of_ne hne]

end Fleet

/-- **Each service makes the run of its own steps**, whatever the services of the other streams do
between them: started on one cursor table, it is after any interleaving where it would be alone with
its own row. -/
theorem streams_independent (H : Host) (st : String → IngestSettings) (log : String → SourceLog) (table : CursorTable)
    (as : List (String × Service.Act)) (name : String) :
    (Trace.run (Fleet.step H st log) (.init table) as).view name =
      Trace.run (Service.step H (st name) (log name)) (.init (table.load name))
        ((as.filter fun a => a.1 = name).map Prod.snd) := by
  have hown : ∀ (f : Fleet) (i : String) (a : Service.Act),
      (f.step H st log (i, a)).view i = (f.view i).step H (st i) (log i) a := fun f i a => f.view_own i a
  have hother : ∀ (f : Fleet) (i : String) (a : Service.Act) (j : String), j ≠ i →
      (f.step H st log (i, a)).view j = f.view j := fun f _ a _ hne => f.view_other hne a
  have hstart : (Fleet.init table).view name = .init (table.load name) := rfl
  rw [← hstart]
  exact Trace.run_view hown hother (.init table) as name

end BlueskyTrends
