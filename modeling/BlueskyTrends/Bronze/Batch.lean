import BlueskyTrends.Bronze.Decode
import Mathlib.Data.List.AList

/-!
# The batch accumulator

`BronzeBatch`, `LikesBatch` and `FollowsBatch` hold decoded rows until a flush, with the
highest offset held of each partition. They are one structure over the row type, which
carries that its offsets are those of its rows.
-/

namespace BlueskyTrends

/-- A row of a bronze table. -/
class KafkaRow (Row : Type) where
  base : Row → RowBase

instance : KafkaRow BronzeRow := ⟨BronzeRow.toRowBase⟩
instance : KafkaRow LikeRow := ⟨LikeRow.toRowBase⟩
instance : KafkaRow FollowRow := ⟨FollowRow.toRowBase⟩

variable {Row : Type} [KafkaRow Row]

def partitionOf (row : Row) : ℤ := (KafkaRow.base row).kafkaPartition
def offsetOf (row : Row) : ℕ := (KafkaRow.base row).kafkaOffset
def ingestTs (row : Row) : ℤ := (KafkaRow.base row).ingestTs

/-- The rows held and the highest offset held of each partition. -/
structure Batch (Row : Type) [KafkaRow Row] where
  maxRows : ℤ
  maxSeconds : ℤ
  rows : List Row
  offsets : AList fun _ : ℤ => ℕ
  covers : ∀ r ∈ rows, ∃ o, offsets.lookup (partitionOf r) = some o ∧ offsetOf r ≤ o
  held : ∀ p o, offsets.lookup p = some o → ∃ r ∈ rows, partitionOf r = p ∧ offsetOf r = o

abbrev BronzeBatch := Batch BronzeRow
abbrev LikesBatch := Batch LikeRow
abbrev FollowsBatch := Batch FollowRow

namespace Batch

/-- `__init__`. -/
def init (maxRows maxSeconds : ℤ) : Batch Row :=
  ⟨maxRows, maxSeconds, [], ∅, by simp, by simp⟩

/-- The offsets after a row: `get(partition, -1)` is below every offset. -/
def track (offsets : AList fun _ : ℤ => ℕ) (row : Row) : AList fun _ : ℤ => ℕ :=
  match offsets.lookup (partitionOf row) with
  | some prev => if prev < offsetOf row then offsets.insert (partitionOf row) (offsetOf row) else offsets
  | none => offsets.insert (partitionOf row) (offsetOf row)

theorem track_lookup (offsets : AList fun _ : ℤ => ℕ) (row : Row) (p : ℤ) :
    (track offsets row).lookup p =
      if p = partitionOf row then some (max ((offsets.lookup p).getD 0) (offsetOf row))
      else offsets.lookup p := by
  unfold track
  by_cases hp : p = partitionOf row
  · subst hp
    rw [if_pos rfl]
    cases h : offsets.lookup (partitionOf row) with
    | none => simp
    | some prev =>
      by_cases hlt : prev < offsetOf row
      · simp [hlt, hlt.le]
      · simp [hlt, h, not_lt.1 hlt]
  · rw [if_neg hp]
    split
    · split
      · exact AList.lookup_insert_ne hp
      · rfl
    · exact AList.lookup_insert_ne hp

/-- `add`. -/
def add (b : Batch Row) (row : Row) : Batch Row where
  maxRows := b.maxRows
  maxSeconds := b.maxSeconds
  rows := b.rows ++ [row]
  offsets := track b.offsets row
  covers := fun r hr => by
    rw [track_lookup]
    rcases List.mem_append.1 hr with hr | hr
    · obtain ⟨o, ho, hle⟩ := b.covers r hr
      by_cases hp : partitionOf r = partitionOf row
      · rw [if_pos hp, ho]; exact ⟨_, rfl, hle.trans (le_max_left _ _)⟩
      · rw [if_neg hp]; exact ⟨o, ho, hle⟩
    · obtain rfl := List.mem_singleton.1 hr
      rw [if_pos rfl]; exact ⟨_, rfl, le_max_right _ _⟩
  held := fun p o ho => by
    rw [track_lookup] at ho
    by_cases hp : p = partitionOf row
    · rw [if_pos hp, Option.some.injEq] at ho
      -- the highest offset is the old one, held by an old row, or the new row's
      rcases le_total (offsetOf row) ((b.offsets.lookup p).getD 0) with hle | hle
      · cases hl : b.offsets.lookup p with
        | none =>
          rw [hl] at ho
          exact ⟨row, by simp, hp.symm, by simpa using ho⟩
        | some prev =>
          rw [hl, Option.getD_some] at ho hle
          obtain ⟨r, hr, hrp, hro⟩ := b.held p prev hl
          exact ⟨r, by simp [hr], hrp, by rw [hro, ← ho]; exact (max_eq_left hle).symm⟩
      · exact ⟨row, by simp, hp.symm, by rw [← ho]; exact (max_eq_right hle).symm⟩
    · rw [if_neg hp] at ho
      obtain ⟨r, hr, h⟩ := b.held p o ho
      exact ⟨r, by simp [hr], h⟩

/-- `is_empty`. -/
def isEmpty (b : Batch Row) : Bool := b.rows.isEmpty

/-- `should_flush`. -/
def shouldFlush (b : Batch Row) (elapsedSeconds : ℤ) : Bool :=
  if b.isEmpty then false
  else decide (b.maxRows ≤ b.rows.length) || decide (b.maxSeconds ≤ elapsedSeconds)

/-- `offsets()`, as its items. -/
def offsetItems (b : Batch Row) : List (ℤ × ℕ) := b.offsets.entries.map fun e => (e.1, e.2)

/-- `clear`. -/
def clear (b : Batch Row) : Batch Row := init b.maxRows b.maxSeconds

variable {b : Batch Row} {p : ℤ} {o : ℕ} {row : Row}

@[simp] theorem add_rows (b : Batch Row) (row : Row) : (b.add row).rows = b.rows ++ [row] := rfl

@[simp] theorem clear_rows (b : Batch Row) : b.clear.rows = [] := rfl

@[simp] theorem clear_lookup (b : Batch Row) (p : ℤ) : b.clear.offsets.lookup p = none := rfl

/-- When a batch is flushed. -/
theorem shouldFlush_iff {elapsed : ℤ} : b.shouldFlush elapsed = true ↔
    b.rows ≠ [] ∧ (b.maxRows ≤ b.rows.length ∨ b.maxSeconds ≤ elapsed) := by
  unfold shouldFlush isEmpty
  cases hrows : b.rows with
  | nil => simp
  | cons row rows => simp

theorem add_lookup (b : Batch Row) (row : Row) (p : ℤ) : (b.add row).offsets.lookup p =
    if p = partitionOf row then some (max ((b.offsets.lookup p).getD 0) (offsetOf row))
    else b.offsets.lookup p :=
  track_lookup _ _ _

theorem lookup_offsetItems (b : Batch Row) (p : ℤ) : b.offsetItems.lookup p = b.offsets.lookup p := by
  unfold offsetItems AList.lookup
  induction b.offsets.entries with
  | nil => rfl
  | cons e l ih =>
    by_cases hp : p = e.1
    · subst hp; simp [List.dlookup_cons_eq l e.1 e.2]
    · have hbeq : (p == e.1) = false := by simpa using hp
      rw [List.map_cons, List.lookup_cons, hbeq, ih, List.dlookup_cons_ne _ _ hp]

theorem mem_offsetItems : (p, o) ∈ b.offsetItems ↔ b.offsets.lookup p = some o := by
  rw [← Option.mem_def, AList.mem_lookup_iff]
  simp only [offsetItems, List.mem_map, Prod.mk.injEq]
  exact ⟨fun ⟨e, he, hp, ho⟩ => hp ▸ ho ▸ he, fun h => ⟨_, h, rfl, rfl⟩⟩

/-- No partition is tracked when no row is held. -/
theorem lookup_empty (h : b.rows = []) (p : ℤ) : b.offsets.lookup p = none := by
  cases ho : b.offsets.lookup p with
  | none => rfl
  | some o =>
    obtain ⟨r, hr, -⟩ := b.held p o ho
    rw [h] at hr; cases hr

end Batch

end BlueskyTrends
