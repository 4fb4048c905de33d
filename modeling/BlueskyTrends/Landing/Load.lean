import BlueskyTrends.Bronze.Batch
import BlueskyTrends.Lib.HighWater
import BlueskyTrends.Lib.Trace

/-!
# The landing load

`posts_landing`, `likes_landing` and `follows_landing` are one body over the event type: the
greatest `ingest_ts` landed so far, a scan of the bronze rows above it, an insert block by
block. `Store` is the bronze table, the landing table and the landing runs in progress.

* `insertArrow_flatten`: the blocks hold the scanned rows, whatever their size.
* `mem_scanned`: the scan returns the rows above every row landed.
-/

namespace BlueskyTrends

open HighWater

/-- The setting the landing assets read, at least one row a block. -/
structure LandingSettings where
  landingBatchRows : ℕ
  pos : 0 < landingBatchRows

variable {Row : Type}

/-! ## The blocks -/

/-- `range(0, n, step)`. -/
def rangeStep (n step : ℕ) : List ℕ := (List.range ((n + step - 1) / step)).map (· * step)

/-- `_insert_arrow`, as the blocks it inserts. -/
def insertArrow (arrow : List Row) (batchRows : ℕ) : List (List Row) :=
  (rangeStep arrow.length batchRows).map fun start => (arrow.drop start).take batchRows

theorem blocks_flatten (l : List Row) (n k : ℕ) :
    (((List.range k).map (· * n)).map fun start => (l.drop start).take n).flatten = l.take (k * n) := by
  -- on the number of blocks: each takes up where the last one ended
  induction k with
  | zero => simp
  | succ k ih =>
    rw [List.range_succ, List.map_append, List.map_append, List.flatten_append, ih, Nat.succ_mul,
      List.take_add]
    simp

/-- **The blocks hold the scanned rows.** -/
theorem insertArrow_flatten (arrow : List Row) {n : ℕ} (hn : 0 < n) :
    (insertArrow arrow n).flatten = arrow := by
  rw [insertArrow, rangeStep, blocks_flatten, List.take_of_length_le]
  have h := Nat.div_add_mod (arrow.length + n - 1) n
  have hlt := Nat.mod_lt (arrow.length + n - 1) hn
  rw [Nat.mul_comm] at h
  omega

/-- The blocks of a landing run. -/
def blocksOf (st : LandingSettings) (arrow : List Row) : List (List Row) :=
  if arrow.length ≠ 0 then insertArrow arrow st.landingBatchRows else []

theorem blocksOf_flatten (st : LandingSettings) (arrow : List Row) :
    (blocksOf st arrow).flatten = arrow := by
  unfold blocksOf
  split
  · exact insertArrow_flatten arrow st.pos
  · rename_i h
    rw [List.length_eq_zero_iff.1 (not_not.1 h), List.flatten_nil]

/-! ## The tables -/

/-- A landing run: the bronze table as it was scanned, the blocks still to insert. -/
structure Job (Row : Type) where
  snapshot : List Row
  blocks : List (List Row)

/-- The bronze table, the landing table and the landing runs in progress. -/
structure Store (Row : Type) where
  bronze : List Row
  landing : List Row
  jobs : List (Job Row)

/-- What landing runs do: a run scans, the rows returned in the order `arrow`; the `i`-th run in
progress inserts its next block, or is done. -/
inductive LandAct (Row : Type) where
  | begin (arrow : List Row)
  | insert (i : ℕ)
  | finish (i : ℕ)

namespace Store

def init (bronze : List Row) : Store Row := ⟨bronze, [], []⟩

/-- The rows still to insert. -/
def pending (s : Store Row) : List Row := s.jobs.flatMap fun j => j.blocks.flatten

/-- An archiver's flush. -/
def append (s : Store Row) (rows : List Row) : Store Row := { s with bronze := s.bronze ++ rows }

/-- The `i`-th landing run dies. -/
def die (s : Store Row) (i : ℕ) : Store Row := { s with jobs := s.jobs.eraseIdx i }

/-- A landing run that has inserted all its blocks has landed what the bronze table held at its scan. -/
def Complete (s : Store Row) : Prop := ∀ j ∈ s.jobs, j.blocks = [] → ∀ r ∈ j.snapshot, r ∈ s.landing

instance [DecidableEq Row] (s : Store Row) : Decidable s.Complete := by unfold Complete; infer_instance

theorem pending_eq_nil {s : Store Row} (h : s.jobs = []) : s.pending = [] := by rw [pending, h]; rfl

end Store

/-! ## The scan -/

variable [KafkaRow Row] {bronze landing : List Row} {r : Row}

/-- `SELECT max(ingest_ts)`, over an empty table the epoch. -/
def maxIngestTs (table : List Row) : ℤ := (table.map ingestTs).max?.getD 0

/-- The high-water mark already landed. -/
def watermark (landing : List Row) : Option ℤ :=
  let landedSoFar := landing.length
  -- over an empty table the maximum is the epoch, so the count decides
  if landedSoFar ≠ 0 then some (maxIngestTs landing) else none

/-- The rows of the scan, in table order. -/
def scanned (bronze : List Row) : Option ℤ → List Row
  | some watermark => bronze.filter fun r => watermark < ingestTs r
  | none => bronze

theorem watermark_eq_max (landing : List Row) : watermark landing = (landing.map ingestTs).max? := by
  unfold watermark maxIngestTs
  cases hm : (landing.map ingestTs).max? with
  | none => rw [List.max?_eq_none_iff, List.map_eq_nil_iff] at hm; simp [hm]
  | some m =>
    have hne : landing.length ≠ 0 := by rintro h; simp [List.length_eq_zero_iff.1 h] at hm
    simp [hne]

/-- **The scan is an incremental copy's.** -/
theorem mem_scanned :
    r ∈ scanned bronze (watermark landing) ↔ r ∈ newer ingestTs {r | r ∈ bronze} {r | r ∈ landing} := by
  rw [watermark_eq_max]
  cases hm : (landing.map ingestTs).max? with
  | none =>
    rw [List.max?_eq_none_iff, List.map_eq_nil_iff] at hm
    simp [scanned, newer, Above, hm]
  | some m =>
    simp [scanned, newer, Above, max_lt_iff hm]

/-! ## Landing runs -/

/-- The body of the landing assets. -/
def Store.land [DecidableEq Row] (st : LandingSettings) (s : Store Row) : LandAct Row → Store Row
  | .begin arrow =>
    -- the scan returns the rows above the watermark, in any order
    if arrow.Perm (scanned s.bronze (watermark s.landing)) then
      { s with jobs := s.jobs ++ [⟨s.bronze, blocksOf st arrow⟩] }
    else s
  | .insert i => match s.jobs[i]? with
    | some ⟨snapshot, block :: blocks⟩ =>
      { s with landing := s.landing ++ block, jobs := s.jobs.set i ⟨snapshot, blocks⟩ }
    | _ => s
  | .finish i => match s.jobs[i]? with
    | some ⟨_, []⟩ => { s with jobs := s.jobs.eraseIdx i }
    | _ => s

/-- `posts_landing`. -/
def postsLanding (st : LandingSettings) : Store BronzeRow → LandAct BronzeRow → Store BronzeRow :=
  Store.land st

/-- `likes_landing`. -/
def likesLanding (st : LandingSettings) : Store LikeRow → LandAct LikeRow → Store LikeRow := Store.land st

/-- `follows_landing`. -/
def followsLanding (st : LandingSettings) : Store FollowRow → LandAct FollowRow → Store FollowRow :=
  Store.land st

end BlueskyTrends
