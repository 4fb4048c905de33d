import BlueskyTrends.Bronze.Archiver
import BlueskyTrends.Landing.Load

/-!
# The lake

Several runs of an archiver, which may overlap, append to the bronze table while landing runs copy
it. A row is stamped with the clock when it is decoded and appended when its batch is flushed. Each
run appends to the snapshot it knows, and is refused when another run has appended since.

* `go_cases`: what an effect of a run does to the tables.
-/

namespace BlueskyTrends

/-- The next effect is an append. -/
def Ctl.appends : Ctl → Bool
  | .append _ => true
  | _ => false

/-- The last clock reading, the archiver runs by number, the tables. The catalogue counts the snapshots
of the bronze table; each run has a `Table` object, which is at the snapshot it has loaded or appended
last. -/
structure Lake (Row : Type) [KafkaRow Row] where
  clock : ℤ
  runs : ℕ → Option (Run Row)
  snapshots : ℕ
  loaded : ℕ → ℕ
  store : Store Row

variable {Row : Type} [KafkaRow Row]

namespace Lake

def init (clock : ℤ) (bronze : List Row) : Lake Row := ⟨clock, fun _ => none, 0, fun _ => 0, .init bronze⟩

/-- What can happen: archiver run `i` starts, goes on or is gone; a landing run goes on. -/
inductive Act (Row : Type) where
  | start (i : ℕ) (now now' : ℤ)
  | archive (i : ℕ) (a : World.RunAct)
  | crash (i : ℕ)
  | land (a : LandAct Row)

/-- The `Table` object of run `i` is at the last snapshot. -/
def Current (w : Lake Row) (i : ℕ) : Prop := w.loaded i = w.snapshots

instance (w : Lake Row) (i : ℕ) : Decidable (w.Current i) := inferInstanceAs (Decidable (_ = _))

variable (A : Archiver Row) (deserializer : Deserializer) (st : BronzeSettings)

/-- The next effect of run `i`. -/
def go (w : Lake Row) (i : ℕ) (r : Run Row) (now : ℤ) (assignment : List ℤ) : Lake Row :=
  match r.go A st now assignment with
  | (r', some (.append rows)) =>
    if w.Current i then
      { w with
        runs := Function.update w.runs i (some r')
        snapshots := w.snapshots + 1
        loaded := Function.update w.loaded i (w.snapshots + 1)
        store := w.store.append rows }
    -- another run has appended since: the catalogue refuses, and `CommitFailedException` is raised
    else { w with runs := Function.update w.runs i (some r.raise) }
  | (r', _) => { w with runs := Function.update w.runs i (some r') }

/-- An archiver run goes on, with whatever message its consumer delivers. Clock readings do not
decrease. -/
def archive (w : Lake Row) (i : ℕ) : World.RunAct → Lake Row
  | .poll msg now ts now' => match w.runs i with
    | some r =>
      if r.ctl = .top ∧ r.goesOn st ∧ w.clock ≤ ts then
        { w with
          clock := ts
          runs := Function.update w.runs i (some (r.poll A deserializer msg now ts now')) }
      else w
    | none => w
  | .go now assignment => match w.runs i with
    | some r => w.go A st i r now assignment
    | none => w
  | .raise => { w with runs := Function.update w.runs i ((w.runs i).map Run.raise) }
  | .report _ _ => w

def step [DecidableEq Row] (lst : LandingSettings) (w : Lake Row) : Act Row → Lake Row
  | .start i now now' =>
    if (w.runs i).all Run.ended then
      { w with
        runs := Function.update w.runs i (some (.init st now now'))
        loaded := Function.update w.loaded i w.snapshots }
    else w
  | .archive i a => w.archive A deserializer st i a
  | .crash i => { w with runs := Function.update w.runs i none }
  | .land a => { w with store := w.store.land lst a }

variable (w : Lake Row) (i : ℕ) (r : Run Row) (now : ℤ) (assignment : List ℤ)

/-- **What an effect does**: a flush that goes through appends the batch; one that is refused raises; any
other leaves the tables as they are. -/
theorem go_cases :
    (r.ctl.appends = true ∧ w.Current i ∧ w.go A st i r now assignment = { w with
      runs := Function.update w.runs i (some (r.go A st now assignment).1)
      snapshots := w.snapshots + 1
      loaded := Function.update w.loaded i (w.snapshots + 1)
      store := w.store.append r.batch.rows }) ∨
    (¬ (r.ctl.appends = true ∧ w.Current i) ∧ ∃ r', (r' = r.raise ∨ r' = (r.go A st now assignment).1) ∧
      w.go A st i r now assignment = { w with runs := Function.update w.runs i (some r') }) := by
  cases ht : r.ctl with
  | append next =>
    have hgo : r.go A st now assignment = ({ r with ctl := .commit next }, some (.append r.batch.rows)) := by
      simp only [Run.go, ht]
    by_cases hcur : w.Current i
    · exact Or.inl ⟨rfl, hcur, by simp only [go, hgo, if_pos hcur]⟩
    · exact Or.inr ⟨fun h => hcur h.2, r.raise, Or.inl rfl, by simp only [go, hgo, if_neg hcur]⟩
  | _ =>
    refine Or.inr ⟨fun h => Bool.false_ne_true h.1, (r.go A st now assignment).1, Or.inr rfl, ?_⟩
    unfold go
    split
    · rename_i r' rows heq
      have heffect : (r.go A st now assignment).2 = some (.append rows) := by rw [heq]
      simp only [Run.go, ht] at heffect
      first
        | cases heffect
        | split at heffect <;> cases heffect
    · rename_i heq
      rw [heq]

/-- An effect does not read the clock of the stamps. -/
theorem go_clock : (w.go A st i r now assignment).clock = w.clock := by
  rcases w.go_cases A st i r now assignment with ⟨-, -, hgo⟩ | ⟨-, r', -, hgo⟩
  · rw [hgo]
  · rw [hgo]

end Lake

end BlueskyTrends
