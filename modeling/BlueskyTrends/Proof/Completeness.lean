import BlueskyTrends.Landing.Lake
import BlueskyTrends.Proof.Recovery
import BlueskyTrends.Proof.ArchiverStep

/-!
# Landing beside archiver runs

`landing_complete_iff`: with archiver runs and landing runs interleaved in any way, landing runs are
complete exactly when each flush that goes through appends rows stamped after every row landed or about
to be, and each scan finds no earlier row about to be landed by another landing run.
-/

namespace BlueskyTrends

variable {Row : Type} [KafkaRow Row]

namespace Lake

/-- Rows appended by a flush that goes through come after every row landed or about to be; a scan finds
the rows of the landing runs in progress landed, or after every row landed. -/
def Timely [DecidableEq Row] (w : Lake Row) : Act Row → Prop
  | .archive i (.go _ _) => ∀ r ∈ w.runs i, r.ctl.appends → w.Current i → Follows r.batch.rows w.store.copied
  | .land a => w.store.Timely (.land a)
  | _ => True

variable [DecidableEq Row]

/-- A step leaves the tables as they are, or is one of the tables' steps. -/
theorem step_store (A : Archiver Row) (deserializer : Deserializer) (st : BronzeSettings)
    (lst : LandingSettings) (w : Lake Row) (a : Act Row) :
    ((w.step A deserializer st lst a).store = w.store ∧ w.Timely a) ∨
      ∃ b, (w.step A deserializer st lst a).store = w.store.step lst b ∧
        (w.Timely a ↔ w.store.Timely b) := by
  cases a with
  | start i now now' =>
    refine Or.inl ⟨?_, trivial⟩
    simp only [step]
    split <;> rfl
  | crash i => exact Or.inl ⟨rfl, trivial⟩
  | land a => exact Or.inr ⟨.land a, rfl, Iff.rfl⟩
  | archive i a =>
    cases a with
    | poll msg now ts now' =>
      refine Or.inl ⟨?_, trivial⟩
      simp only [step, archive]
      split
      · split <;> rfl
      · rfl
    | raise | report => exact Or.inl ⟨rfl, trivial⟩
    | go now assignment =>
      cases hr : w.runs i with
      | none =>
        refine Or.inl ⟨by simp only [step, archive, hr], fun r hr' => ?_⟩
        rw [hr] at hr'; cases hr'
      | some r =>
        have ht : w.Timely (.archive i (.go now assignment)) ↔
            (r.ctl.appends = true ∧ w.Current i → Follows r.batch.rows w.store.copied) := by
          simp [Timely, hr]
        simp only [step, archive, hr]
        -- of a run's effects the tables see the append only, where it goes through
        rcases w.go_cases A st i r now assignment with ⟨happ, hcur, hgo⟩ | ⟨hno, r', -, hgo⟩
        · rw [hgo]
          exact Or.inr ⟨.append r.batch.rows, rfl, ht.trans ⟨fun h => h ⟨happ, hcur⟩, fun h _ => h⟩⟩
        · rw [hgo]
          exact Or.inl ⟨rfl, ht.2 fun h => absurd h hno⟩

end Lake

/-- **Completeness, exactly.** Whatever archiver runs and landing runs do, and in whatever order, every
landing run that inserts all its blocks has landed the bronze table it scanned, exactly when each flush
that goes through appends rows stamped after every row landed or about to be, and each scan finds no row
about to be landed by another landing run that is not stamped after every row landed. -/
theorem landing_complete_iff [DecidableEq Row] (A : Archiver Row) (deserializer : Deserializer)
    (st : BronzeSettings) (lst : LandingSettings) (clock : ℤ) (bronze : List Row)
    (as : List (Lake.Act Row)) :
    (∀ bs, bs <+: as →
      (Trace.run (Lake.step A deserializer st lst) (.init clock bronze) bs).store.Recovers lst) ↔
      Trace.Along (Lake.step A deserializer st lst) Lake.Timely (.init clock bronze) as := by
  refine Trace.forall_prefix_iff_along (I := fun w : Lake Row => w.store.Sound)
    (P := fun w => w.store.Recovers lst)
    (fun w a hok h => ?_) (fun _ h => h.recovers) (fun w a h hok => ?_) (Store.sound_init bronze)
  · rcases w.step_store A deserializer st lst a with ⟨hs, -⟩ | ⟨b, hs, ht⟩
    · rw [hs]; exact h
    · rw [hs]; exact Store.sound_step h (ht.1 hok)
  · rcases w.step_store A deserializer st lst a with ⟨-, ht⟩ | ⟨b, hs, ht⟩
    · exact absurd ht hok
    · rw [hs]; exact Store.not_recovers_of_untimely h (mt ht.2 hok)

/-- A batch of one row. -/
def oneRowPerBatch : BronzeSettings := { defaultSettings with bronzeBatchMaxRows := 1 }

/-- A run decodes a post and flushes it; it is landed; the run decodes another one at the same reading of the
clock and flushes it. -/
def sameStampLater : List (Lake.Act BronzeRow) :=
  [.start 0 0 0,
    .archive 0 (.poll (some ⟨none, some 0, some 0, some postBytes⟩) 0 1 0), .archive 0 (.go 0 []),
    .archive 0 (.go 0 []),
    .land (.begin [stampedPost 0 1]), .land (.insert 0), .land (.finish 0),
    .archive 0 (.poll (some ⟨none, some 1, some 0, some postBytes⟩) 0 1 0), .archive 0 (.go 0 []),
    .archive 0 (.go 0 []),
    .land (.begin [])]

/-- The posts archiver and landing, from empty tables. -/
def postsLake (as : List (Lake.Act BronzeRow)) : Lake BronzeRow :=
  Trace.run (Lake.step (postsBronze asciiHost oneRowPerBatch) postDeserializer oneRowPerBatch rowByRow)
    (.init 0 []) as

/-- A flush is refused once another run has appended. -/
example : (postsLake [.start 0 0 0, .start 1 0 0,
    .archive 0 (.poll (some ⟨none, some 0, some 0, some postBytes⟩) 0 1 0),
    .archive 1 (.poll (some ⟨none, some 1, some 0, some postBytes⟩) 0 2 0), .archive 1 (.go 0 []),
    .archive 0 (.go 0 [])]).store.bronze = [stampedPost 1 2] := by decide

/-- **The second row is never landed**: the next landing run finds nothing newer. -/
theorem landing_skips_same_stamp :
    (postsLake sameStampLater).store.bronze = [stampedPost 0 1, stampedPost 1 1] ∧
      (postsLake sameStampLater).store.landing = [stampedPost 0 1] ∧
      ¬ (postsLake sameStampLater).store.Complete := by
  decide

end BlueskyTrends
