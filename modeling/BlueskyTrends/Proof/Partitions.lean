import BlueskyTrends.Dbt.Models
import BlueskyTrends.Lib.Blocks
import BlueskyTrends.Proof.Transpose

/-!
# When a landing run is accepted

The landing tables are partitioned by the day of `created_at`, which the clients supply, and the server rejects an
insert that falls into more than a hundred partitions. Blocks are cut by their number of rows.

* `submit_iff`: every block is accepted exactly when none falls into too many partitions.
* `partitions_tuples`: the partitions of a block are the days of its rows.
* `landing_accepted_iff`: the exact condition on the rows scanned and the block size.
-/

namespace BlueskyTrends

open Blocks Columns

variable {Row : Type}

/-! ## The landing table -/

/-- `max_partitions_per_insert_block`, which no configuration overrides. -/
def maxPartitionsPerInsertBlock : ℕ := 100

/-- `toYYYYMMDD`, of microseconds in UTC. -/
def toYYYYMMDD (us : ℤ) : ℤ :=
  let (y, m, d) := civil (us / 86400000000)
  y * 10000 + m * 100 + d

/-- The `created_at` of a tuple, in microseconds. -/
def createdAtOf (columnNames : List String) (row : List Val) : ℤ :=
  match (columnNames.zip row).lookup "created_at" with
  | some (.datetime t) => t.utcMicros
  | _ => 0

/-- `PARTITION BY key(created_at)`: the partitions an insert falls into. -/
def partitions (key : ℤ → ℤ) (call : BlockCall) : List ℤ :=
  (call.rows.map fun row => key (createdAtOf call.columnNames row)).dedup

/-- An insert falls into no more partitions than the server takes. -/
def Fits (key : ℤ → ℤ) (call : BlockCall) : Prop :=
  (partitions key call).length ≤ maxPartitionsPerInsertBlock

instance (key : ℤ → ℤ) (call : BlockCall) : Decidable (Fits key call) := Nat.decLe _ _

def tooManyPartitions : LoadError := .server "Too many partitions for single INSERT block (more than 100)"

/-- The server, as the rows of a landing table: it inserts a block whole, or rejects it. -/
def landingTable (key : ℤ → ℤ) : ChClient (List (List Val)) := fun call landing =>
  if Fits key call then .ok (landing ++ call.rows) else .error tooManyPartitions

variable {key : ℤ → ℤ} {table : String} {cols : List String} {blocks : List (List (List Val))} {call : BlockCall}
  {s : Session (List (List Val))}

theorem insertBlock_fits (h : Fits key call) :
    insertBlock (landingTable key) call s =
      (⟨s.server ++ call.rows, s.received ++ [call]⟩, .ok call.rows.length) := by
  by_cases hrows : call.rows = []
  · simp [insertBlock, hrows]
  · simp [insertBlock, hrows, landingTable, h]

theorem insertBlock_rejected (h : ¬ Fits key call) :
    insertBlock (landingTable key) call s =
      ({ s with received := s.received ++ [call] }, .error tooManyPartitions) := by
  have hrows : call.rows ≠ [] := by
    intro hnil
    refine h ?_
    rw [Fits, partitions, hnil]
    exact Nat.zero_le _
  simp [insertBlock, hrows, landingTable, h]

/-- Blocks that fit are landed one after the other. -/
theorem submit_fits (h : ∀ block ∈ blocks, Fits key ⟨table, block, cols⟩) (total : ℕ)
    (s : Session (List (List Val))) :
    submit (landingTable key) table cols blocks total s =
      (⟨s.server ++ blocks.flatten, s.received ++ blocks.map fun block => ⟨table, block, cols⟩⟩,
        .ok (total + blocks.flatten.length)) := by
  induction blocks generalizing total s with
  | nil => simp [submit]
  | cons block blocks ih =>
    have hblock := insertBlock_fits (s := s) (h block List.mem_cons_self)
    have hrest := ih (fun b hb => h b (List.mem_cons_of_mem block hb)) (total + block.length)
      ⟨s.server ++ block, s.received ++ [⟨table, block, cols⟩]⟩
    simp only [submit, hblock, hrest]
    simp [Nat.add_assoc]

/-- The first block that does not fit is submitted, and ends the loop. -/
theorem submit_rejected (h : ∃ block ∈ blocks, ¬ Fits key ⟨table, block, cols⟩) (total : ℕ)
    (s : Session (List (List Val))) :
    (submit (landingTable key) table cols blocks total s).2 = .error tooManyPartitions ∧
      ∃ call ∈ (submit (landingTable key) table cols blocks total s).1.received, ¬ Fits key call := by
  induction blocks generalizing total s with
  | nil => simp at h
  | cons block blocks ih =>
    by_cases hb : Fits key ⟨table, block, cols⟩
    · have hrest : ∃ b ∈ blocks, ¬ Fits key ⟨table, b, cols⟩ := by
        obtain ⟨b, hmem, hno⟩ := h
        rcases List.mem_cons.1 hmem with rfl | hmem
        · exact absurd hb hno
        · exact ⟨b, hmem, hno⟩
      simp only [submit, insertBlock_fits hb]
      exact ih hrest _ _
    · simp only [submit, insertBlock_rejected hb]
      exact ⟨trivial, _, by simp, hb⟩

/-! ## The days of a block -/

/-- The partition a row falls into. -/
def Layout.day (L : Layout Row) (key : ℤ → ℤ) (r : Row) : ℤ := key (L.createdAt r).utcMicros

theorem createdAtOf_tuple (L : Layout Row) (r : Row) :
    createdAtOf L.columns (L.tuple r) = (L.createdAt r).utcMicros := by
  have hzip : L.columns.zip (L.tuple r) = L.columns.map fun c => (c, L.getattr c r) := by
    conv_lhs => rw [← List.map_id L.columns]
    rw [Layout.tuple, List.zip_map']
    rfl
  rw [createdAtOf, hzip, lookup_laid L.dated, L.created]

/-- **The partitions of a block are the days of its rows.** -/
theorem partitions_tuples (L : Layout Row) (key : ℤ → ℤ) (table : String) (rows : List Row) :
    partitions key ⟨table, rows.map L.tuple, L.columns⟩ = (rows.map (L.day key)).dedup := by
  rw [partitions, List.map_map]
  refine congrArg List.dedup (List.map_congr_left fun r _ => ?_)
  simp only [Function.comp_apply, createdAtOf_tuple, Layout.day]

/-- Of scanned rows whose positions have one quotient by `n`, no more than a hundred are of different days. -/
def FewDays (day : Row → ℤ) (n : ℕ) (rows : List Row) : Prop :=
  ∀ picked : List (Row × ℕ), picked.Sublist rows.zipIdx →
    picked.Pairwise (fun x y => x.2 / n = y.2 / n ∧ day x.1 ≠ day y.1) →
      picked.length ≤ maxPartitionsPerInsertBlock

/-- The blocks of `_insert_arrow` are those of the list, as far as it reaches. -/
theorem forall_insertArrow {rows : List Row} {n : ℕ} (hn : 0 < n) {P : List Row → Prop} (hnil : P []) :
    (∀ b ∈ insertArrow rows n, P b) ↔ ∀ q, P (block rows n q) := by
  have hmem : ∀ q, q < (rows.length + n - 1) / n → block rows n q ∈ insertArrow rows n := fun q hq =>
    List.mem_map.2 ⟨q * n, List.mem_map.2 ⟨q, List.mem_range.2 hq, rfl⟩, rfl⟩
  constructor
  · intro h q
    by_cases hq : q < (rows.length + n - 1) / n
    · exact h _ (hmem q hq)
    · -- past the last row
      have hle : rows.length ≤ q * n := by
        have hlt := (Nat.div_lt_iff_lt_mul hn).1 (Nat.lt_succ_of_le (not_lt.1 hq))
        rw [Nat.succ_mul] at hlt
        omega
      have hblock : block rows n q = [] := by rw [block, List.drop_eq_nil_of_le hle, List.take_nil]
      rw [hblock]
      exact hnil
  · intro h b hb
    obtain ⟨start, hstart, rfl⟩ := List.mem_map.1 hb
    obtain ⟨q, -, rfl⟩ := List.mem_map.1 hstart
    exact h q

/-- The blocks of a scan fit exactly when it has few days at a time. -/
theorem Layout.blocks_fit_iff (L : Layout Row) (key : ℤ → ℤ) (table : String) (rows : List Row) {n : ℕ}
    (hn : 0 < n) :
    (∀ b ∈ L.blocks rows n, Fits key ⟨table, b, L.columns⟩) ↔ FewDays (L.day key) n rows := by
  rw [Layout.blocks, List.forall_mem_map]
  simp only [Fits, partitions_tuples]
  exact (forall_insertArrow hn (Nat.zero_le _)).trans (forall_block_iff hn)

/-! ## Landing runs -/

/-- A landing run of the rows scanned, with no outside failure: every block it submits falls into a hundred partitions
at most, and it completes, with all the rows landed. -/
def Layout.Completes (L : Layout Row) (key : ℤ → ℤ) (st : LandingSettings) (table : String)
    (landing : List (List Val)) (rows : List Row) : Prop :=
  (∀ call ∈ (L.load (landingTable key) table st (L.table rows) ⟨landing, []⟩).1.received, Fits key call) ∧
    (L.load (landingTable key) table st (L.table rows) ⟨landing, []⟩).2 = .ok rows.length ∧
    (L.load (landingTable key) table st (L.table rows) ⟨landing, []⟩).1.server = landing ++ rows.map L.tuple

theorem Layout.load_eq (L : Layout Row) {σ : Type} (ch : ChClient σ) (table : String) (st : LandingSettings)
    (rows : List Row) (s : Session σ) : L.load ch table st (L.table rows) s =
      submit ch table L.columns (L.blocks rows st.landingBatchRows) 0 s := by
  by_cases hrows : rows.length = 0
  · have hnil := List.length_eq_zero_iff.1 hrows
    have hblocks : L.blocks rows st.landingBatchRows = [] := by
      refine List.eq_nil_iff_forall_not_mem.2 fun b hb => ?_
      have hflatten := L.flatten_blocks rows st.pos
      rw [hnil, List.map_nil, List.flatten_eq_nil_iff] at hflatten
      exact (Layout.mem_blocks st.pos hb).1 (hflatten b (hnil ▸ hb))
    rw [hblocks, hnil]
    rfl
  · exact (if_pos hrows).trans (L.insertArrow_eq ch table rows st.landingBatchRows s)

/-- A landing run that has too many days at a time is rejected. -/
theorem Layout.load_rejected (L : Layout Row) {key : ℤ → ℤ} {st : LandingSettings} {table : String}
    {rows : List Row} (h : ¬ FewDays (L.day key) st.landingBatchRows rows) (s : Session (List (List Val))) :
    (L.load (landingTable key) table st (L.table rows) s).2 = .error tooManyPartitions := by
  rw [← L.blocks_fit_iff key table rows st.pos] at h
  push Not at h
  rw [L.load_eq]
  exact (submit_rejected h 0 s).1

/-- **A landing run completes exactly when it has few days at a time.** -/
theorem Layout.completes_iff (L : Layout Row) (key : ℤ → ℤ) (st : LandingSettings) (table : String)
    (landing : List (List Val)) (rows : List Row) :
    L.Completes key st table landing rows ↔ FewDays (L.day key) st.landingBatchRows rows := by
  rw [← L.blocks_fit_iff key table rows st.pos]
  constructor
  · intro h
    by_contra hno
    rw [L.blocks_fit_iff key table rows st.pos] at hno
    have hrejected : (L.load (landingTable key) table st (L.table rows) ⟨landing, []⟩).2 =
        .error tooManyPartitions := L.load_rejected hno _
    rw [h.2.1] at hrejected
    cases hrejected
  · intro h
    simp only [Layout.Completes, L.load_eq]
    rw [submit_fits h, L.flatten_blocks rows st.pos]
    refine ⟨?_, by simp, rfl⟩
    intro call hcall
    obtain ⟨b, hb, rfl⟩ := List.mem_map.1 (by simpa using hcall)
    exact h b hb

/-- **When a landing run is accepted**, for each event type: whatever the scan returned, in whatever order, every block
falls into a hundred partitions at most and the run completes exactly when no more than a hundred of the rows whose
positions have one quotient by the block size are of different days. -/
theorem landing_accepted_iff (key : ℤ → ℤ) (st : LandingSettings) (table : String) (landing : List (List Val)) :
    (∀ rows, postsLayout.Completes key st table landing rows ↔
      FewDays (postsLayout.day key) st.landingBatchRows rows) ∧
    (∀ rows, likesLayout.Completes key st table landing rows ↔
      FewDays (likesLayout.day key) st.landingBatchRows rows) ∧
    ∀ rows, followsLayout.Completes key st table landing rows ↔
      FewDays (followsLayout.day key) st.landingBatchRows rows := by
  refine ⟨?_, ?_, ?_⟩
  · intro rows
    exact postsLayout.completes_iff key st table landing rows
  · intro rows
    exact likesLayout.completes_iff key st table landing rows
  · intro rows
    exact followsLayout.completes_iff key st table landing rows

/-! ## A post a day -/

/-- A post of the `i`-th day of 2024. -/
def postOn (i : ℕ) : BronzeRow where
  did := "did:plc:author123"
  rkey := "3kpostrkey"
  cid := "bafypost"
  createdAt := ⟨1704067200000000 + 86400000000 * i, some 0⟩
  text := "hello bluesky"
  langs := ["en"]
  replyParent := none
  replyRoot := none
  kafkaPartition := 0
  kafkaOffset := i
  ingestTs := 1735689600000000 + i

/-- A post of each of a hundred and one days. -/
def postADay : List BronzeRow := (List.range 101).map postOn

theorem postADay_days : (postADay.map (postsLayout.day toYYYYMMDD)).Pairwise (· < ·) := by
  rw [← List.isChain_iff_pairwise]
  decide +kernel

/-- **They do not fit in one block.** -/
theorem postADay_many {n : ℕ} (hn : 100 < n) : ¬ FewDays (postsLayout.day toYYYYMMDD) n postADay := by
  intro h
  have hlen : postADay.length = 101 := by simp [postADay]
  have hpair : postADay.zipIdx.Pairwise fun x y => x.2 / n = y.2 / n ∧
      postsLayout.day toYYYYMMDD x.1 ≠ postsLayout.day toYYYYMMDD y.1 := by
    have hdays : postADay.zipIdx.Pairwise fun x y =>
        postsLayout.day toYYYYMMDD x.1 < postsLayout.day toYYYYMMDD y.1 := by
      have hdays := postADay_days
      rw [← List.zipIdx_map_fst 0 postADay, List.map_map] at hdays
      exact List.pairwise_map.1 hdays
    refine hdays.imp_of_mem fun hx hy hlt => ⟨?_, hlt.ne⟩
    have hx := (List.mem_zipIdx' hx).1
    have hy := (List.mem_zipIdx' hy).1
    rw [Nat.div_eq_of_lt (by omega), Nat.div_eq_of_lt (by omega)]
  have hle := h _ (List.Sublist.refl _) hpair
  rw [List.length_zipIdx, hlen] at hle
  exact absurd hle (by decide)

/-- **Every backlog is accepted exactly under blocks of a hundred rows at most.** -/
theorem always_accepted_iff (st : LandingSettings) (table : String) (landing : List (List Val)) :
    (∀ rows, postsLayout.Completes toYYYYMMDD st table landing rows) ↔ st.landingBatchRows ≤ 100 := by
  simp only [Layout.completes_iff]
  constructor
  · intro h
    by_contra hlarge
    exact postADay_many (not_le.1 hlarge) (h postADay)
  · intro hsmall rows
    exact (forall_block_iff st.pos).1 (block_of_small hsmall)

/-- **A hundred and one posts, a day each, are rejected** under the default block size. -/
theorem postADay_rejected :
    scanned postADay (watermark ([] : List BronzeRow)) = postADay ∧
    (postsLayout.load (landingTable toYYYYMMDD) "posts_bronze_raw" ⟨50000, by decide⟩ (postsLayout.table postADay)
      ⟨[], []⟩).2 = .error tooManyPartitions ∧
    ¬ postsLayout.Completes toYYYYMMDD ⟨50000, by decide⟩ "posts_bronze_raw" [] postADay := by
  have hmany : ¬ FewDays (postsLayout.day toYYYYMMDD) 50000 postADay := postADay_many (by decide)
  refine ⟨rfl, postsLayout.load_rejected hmany _, ?_⟩
  rw [Layout.completes_iff]
  exact hmany

end BlueskyTrends
