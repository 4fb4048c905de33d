import BlueskyTrends.Proof.Landing

/-!
# Landing after a failure

`landing_recovers_iff`: with landing runs one at a time and rows appended in stamp order, landing runs are
complete exactly when each run that died had inserted no row stamped at or after one it had not.
-/

namespace BlueskyTrends

variable {Row : Type} [KafkaRow Row] {s : Store Row}

namespace Store

/-- Landing runs come one at a time, and rows appended are stamped after all earlier ones. -/
def InOrder (s : Store Row) : StoreAct Row → Prop
  | .append rows => ∀ r ∈ rows, ∀ r' ∈ s.bronze, ingestTs r' < ingestTs r
  | .land a => s.Alone a
  | .die _ => True

/-- A landing run that dies leaves rows that are stamped after every row landed, or landed. -/
def CutInOrder (s : Store Row) : StoreAct Row → Prop
  | .die i => Follows s.pending (s.die i).copied
  | _ => True

instance (s : Store Row) : ∀ a, Decidable (s.Alone a)
  | .begin _ => decidable_of_iff (s.jobs.isEmpty = true) List.isEmpty_iff
  | .insert _ | .finish _ => isTrue trivial

instance (s : Store Row) : ∀ a, Decidable (s.InOrder a)
  | .append rows => inferInstanceAs (Decidable (∀ r ∈ rows, ∀ r' ∈ s.bronze, ingestTs r' < ingestTs r))
  | .land a => inferInstanceAs (Decidable (s.Alone a))
  | .die _ => isTrue trivial

instance [DecidableEq Row] (s : Store Row) : ∀ a, Decidable (s.CutInOrder a)
  | .die i => inferInstanceAs (Decidable (Follows s.pending (s.die i).copied))
  | .append _ | .land _ => isTrue trivial

theorem Timely.cutInOrder {a : StoreAct Row} (h : s.Timely a) : s.CutInOrder a := by
  cases a with
  | die i => exact h
  | append | land => trivial

/-- In order, only a run that dies can be untimely. -/
theorem timely_of_inOrder (hs : s.Sound) {a : StoreAct Row} (h : s.InOrder a ∧ s.CutInOrder a) :
    s.Timely a := by
  obtain ⟨hord, hcut⟩ := h
  cases a with
  | append rows => exact fun r hr => Or.inr fun r' hr' => hord r hr r' (hs.source hr')
  | die i => exact hcut
  | land a =>
    cases a with
    | begin arrow =>
      intro _
      rw [pending_eq_nil hord]
      exact HighWater.gapless_of_subset fun _ hr => absurd hr List.not_mem_nil
    | insert | finish => trivial

end Store

/-- **Recovery, exactly.** From any bronze table, with landing runs one at a time and rows appended in
stamp order, every landing run that inserts all its blocks has landed the bronze table it scanned,
exactly when each run that died left only rows stamped after every row landed. -/
theorem landing_recovers_iff [DecidableEq Row] (st : LandingSettings) (bronze : List Row)
    (as : List (StoreAct Row)) (hord : Trace.Along (Store.step st) Store.InOrder (.init bronze) as) :
    (∀ bs, bs <+: as → (Trace.run (Store.step st) (.init bronze) bs).Recovers st) ↔
      Trace.Along (Store.step st) Store.CutInOrder (.init bronze) as := by
  rw [Store.recovers_iff_timely]
  constructor
  -- a timely run cuts in order; in order, a run that cuts in order is timely
  · exact Trace.along_mono fun _ _ h => Store.Timely.cutInOrder h
  · intro hcut
    exact Trace.along_imp_inv (I := Store.Sound) (fun _ _ hs h => Store.timely_of_inOrder hs h)
      (fun _ _ hok h => Store.sound_step h hok) (Store.sound_init bronze) (Trace.along_and.2 ⟨hord, hcut⟩)

/-- The first post of a partition, stamped `ts`. -/
def stampedPost (partition ts : ℤ) : BronzeRow :=
  ⟨⟨partition, 0, ts⟩, "d", "r", "c", ⟨0, some 0⟩, "t", [], none, none⟩

def twoRows : List BronzeRow := [stampedPost 0 1, stampedPost 1 2]

/-- One row a block. -/
def rowByRow : LandingSettings := ⟨1, by decide⟩

/-- A run that dies with the later row uninserted, a row appended, and a run that lands both. -/
def diesAfterEarlier : List (StoreAct BronzeRow) :=
  [.land (.begin [stampedPost 0 1, stampedPost 1 2]), .land (.insert 0), .die 0,
    .append [stampedPost 2 3], .land (.begin [stampedPost 2 3, stampedPost 1 2]), .land (.insert 0),
    .land (.insert 0)]

theorem landing_recovers_in_order :
    Trace.Along (Store.step rowByRow) Store.InOrder (.init twoRows) diesAfterEarlier ∧
      ∀ bs, bs <+: diesAfterEarlier →
        (Trace.run (Store.step rowByRow) (.init twoRows) bs).Recovers rowByRow :=
  ⟨by decide, (landing_recovers_iff rowByRow _ _ (by decide)).2 (by decide)⟩

/-- Two rows, scanned the later one first; the run dies after one block, and the next finds nothing
newer. -/
def diesAfterLater : List (StoreAct BronzeRow) :=
  [.land (.begin [stampedPost 1 2, stampedPost 0 1]), .land (.insert 0), .die 0, .land (.begin [])]

/-- **The earlier row is not landed** by the run that completes. -/
theorem landing_skips_earlier :
    twoRows.Pairwise (fun r r' => ingestTs r ≠ ingestTs r') ∧
      Trace.Along (Store.step rowByRow) Store.InOrder (.init twoRows) diesAfterLater ∧
      ¬ (Trace.run (Store.step rowByRow) (.init twoRows) diesAfterLater).Complete := by
  decide

end BlueskyTrends
