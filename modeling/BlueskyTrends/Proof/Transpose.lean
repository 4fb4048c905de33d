import BlueskyTrends.Landing.Columns

/-!
# The rows come through

A batch lays its rows out by column and a landing run reads them back by row, block by block. The blocks that
`insert_block` receives hold the rows, each as the tuple of its own fields in the column order handed over.

* `toArrow_eq`: a batch is materialised as its rows laid out.
* `insertArrow_eq`: a table laid out from rows is inserted as the blocks of their tuples.
* `mem_blocks`: no block is empty, and none is longer than the block size.
* `submit_accepted`: where no insert raises, every block is received and counted.
-/

namespace BlueskyTrends

open Columns

variable {Row σ : Type}

/-! ## Materialisation -/

theorem appendTo_laid {names : List String} {f : String → List Val} {name : String} {x : Val}
    (h : name ∈ names) : appendTo (names.map fun k => (k, f k)) name x =
      .ok (names.map fun k => (k, if k = name then f k ++ [x] else f k)) := by
  have hmem : name ∈ (names.map fun k => (k, f k)).map Prod.fst := by simpa using h
  rw [appendTo, if_pos hmem, Except.ok.injEq, List.map_map]
  refine List.map_congr_left fun k _ => ?_
  by_cases hk : k = name <;> simp [hk]

/-- Appends to different columns, each of the attribute of the column's name. -/
theorem foldlM_appendTo {names : List String} {getattr : String → Row → Val} (r : Row)
    {as : List (String × (Row → Val))} (has : (as.map Prod.fst).Nodup) (hnames : ∀ a ∈ as, a.1 ∈ names)
    (hown : ∀ a ∈ as, a.2 = getattr a.1) (f : String → List Val) :
    as.foldlM (fun columns a => appendTo columns a.1 (a.2 r)) (names.map fun k => (k, f k)) =
      .ok (names.map fun k => (k, if k ∈ as.map Prod.fst then f k ++ [getattr k r] else f k)) := by
  -- one append after the other; no later one is to the same column
  induction as generalizing f with
  | nil => simp [pure, Except.pure]
  | cons a as ih =>
    rw [List.map_cons, List.nodup_cons] at has
    have hrest := ih has.2 (fun b hb => hnames b (List.mem_cons_of_mem a hb))
      (fun b hb => hown b (List.mem_cons_of_mem a hb)) fun k => if k = a.1 then f k ++ [a.2 r] else f k
    rw [List.foldlM_cons, appendTo_laid (hnames a List.mem_cons_self)]
    refine hrest.trans ?_
    rw [Except.ok.injEq]
    refine List.map_congr_left fun k _ => ?_
    by_cases hk : k = a.1
    · subst hk
      simp [has.1, hown a List.mem_cons_self]
    · simp only [List.map_cons, List.mem_cons, hk, false_or, if_false]

/-- A row is appended to every column. -/
theorem Layout.appendRow_laid (L : Layout Row) (f : String → List Val) (r : Row) :
    L.appendRow (L.schema.map fun k => (k, f k)) r =
      .ok (L.schema.map fun k => (k, f k ++ [L.getattr k r])) := by
  have hnames : ∀ a ∈ L.appends, a.1 ∈ L.schema := by
    intro a ha
    exact L.filled.mem_iff.1 (List.mem_map_of_mem ha)
  rw [appendRow, foldlM_appendTo r (L.filled.nodup_iff.2 L.nodup) hnames L.own, Except.ok.injEq]
  refine List.map_congr_left fun k hk => ?_
  rw [if_pos (L.filled.mem_iff.2 hk)]

theorem Layout.foldlM_appendRow (L : Layout Row) (rows : List Row) (f : String → List Val) :
    rows.foldlM L.appendRow (L.schema.map fun k => (k, f k)) =
      .ok (L.schema.map fun k => (k, f k ++ rows.map (L.getattr k))) := by
  induction rows generalizing f with
  | nil => simp [pure, Except.pure]
  | cons r rows ih =>
    rw [List.foldlM_cons, L.appendRow_laid]
    refine (ih fun k => f k ++ [L.getattr k r]).trans ?_
    simp

theorem Layout.schema_ne_nil (L : Layout Row) : L.schema ≠ [] := by
  intro h
  have hdated := L.projected _ L.dated
  rw [h] at hdated
  cases hdated

theorem Layout.columnAt_table (L : Layout Row) (rows : List Row) {names : List String}
    (hnames : ∀ k ∈ names, k ∈ L.schema) :
    (names.mapM fun name => (columnAt (L.table rows).columns name).map fun column => (name, column)) =
      .ok (names.map fun k => (k, rows.map (L.getattr k))) := by
  induction names with
  | nil => rfl
  | cons k names ih =>
    have hcolumn : (L.table rows).column k = some (rows.map (L.getattr k)) :=
      Table.column_ofRows (hnames k List.mem_cons_self)
    have hat : columnAt (L.table rows).columns k = .ok (rows.map (L.getattr k)) := by
      rw [Table.column] at hcolumn
      rw [columnAt, hcolumn]
    rw [List.mapM_cons, hat, ih fun j hj => hnames j (List.mem_cons_of_mem k hj)]
    rfl

/-- **A batch is materialised as its rows laid out.** -/
theorem Layout.toArrow_eq [KafkaRow Row] (L : Layout Row) (b : Batch Row) :
    L.toArrow b = .ok (L.table b.rows) := by
  have hfill : b.rows.foldlM L.appendRow (L.schema.map fun name => (name, [])) =
      .ok (L.table b.rows).columns := L.foldlM_appendRow b.rows fun _ => []
  have hfields := L.columnAt_table b.rows fun k hk => hk
  have htable : Table.ofColumns? (L.schema.map fun k => (k, b.rows.map (L.getattr k))) = some (L.table b.rows) :=
    Table.ofColumns?_ofRows L.schema_ne_nil
  rw [toArrow, hfill]
  simp only [bind, Except.bind, paTable, hfields, htable]
  rfl

/-! ## Landing -/

/-- The loop over the starts submits the slices of the rows, as tuples. -/
theorem insertChunks_eq (ch : ChClient σ) (table : String) {cols : List String} (hne : cols ≠ [])
    (getattr : String → Row → Val) (rows : List Row) (n : ℕ) (starts : List ℕ) (total : ℕ) (s : Session σ) :
    insertChunks ch table cols (.ofRows getattr cols rows) n starts total s =
      submit ch table cols (starts.map fun start =>
        ((rows.drop start).take n).map fun r => cols.map fun c => getattr c r) total s := by
  induction starts generalizing total s with
  | nil => rfl
  | cons start starts ih =>
    rw [insertChunks, Table.slice_ofRows, Table.tuples_ofRows hne fun c hc => hc, List.map_cons, submit]
    simp only [ih]

/-- **A table laid out from rows is inserted as the blocks of their tuples.** -/
theorem Layout.insertArrow_eq (L : Layout Row) (ch : ChClient σ) (table : String) (rows : List Row) (n : ℕ)
    (s : Session σ) : L.insertArrow ch table (L.table rows) n s =
      submit ch table L.columns (L.blocks rows n) 0 s := by
  have hne : L.columns ≠ [] := List.ne_nil_of_mem L.dated
  have hselect : (L.table rows).select L.columns = some (.ofRows L.getattr L.columns rows) :=
    Table.select_ofRows L.projected
  rw [Layout.insertArrow, hselect]
  refine (insertChunks_eq ch table hne L.getattr rows n _ 0 s).trans ?_
  rw [Layout.blocks, BlueskyTrends.insertArrow, List.map_map]
  rfl

/-- **The blocks hold the rows, in order.** -/
theorem Layout.flatten_blocks (L : Layout Row) (rows : List Row) {n : ℕ} (hn : 0 < n) :
    (L.blocks rows n).flatten = rows.map L.tuple := by
  rw [Layout.blocks, ← List.map_flatten, insertArrow_flatten rows hn]

/-- **No block is empty, and none is longer than the block size.** -/
theorem Layout.mem_blocks {L : Layout Row} {rows : List Row} {block : List (List Val)} {n : ℕ} (hn : 0 < n)
    (h : block ∈ L.blocks rows n) : block ≠ [] ∧ block.length ≤ n := by
  obtain ⟨rows', hrows', rfl⟩ := List.mem_map.1 h
  obtain ⟨start, hstart, rfl⟩ := List.mem_map.1 hrows'
  obtain ⟨q, hq, rfl⟩ := List.mem_map.1 hstart
  -- the last start is below the number of rows
  have hle : (q + 1) * n ≤ rows.length + n - 1 :=
    (Nat.le_div_iff_mul_le hn).1 (List.mem_range.1 hq)
  rw [Nat.succ_mul] at hle
  have hlt : q * n < rows.length := by omega
  constructor
  · rw [← List.length_pos_iff, List.length_map, List.length_take, List.length_drop]
    omega
  · rw [List.length_map]
    exact List.length_take_le _ _

/-- A client whose inserts return. -/
def accepting (record : BlockCall → σ → σ) : ChClient σ := fun call server => .ok (record call server)

/-- **Where no insert raises, every block is received, and its rows are counted.** -/
theorem submit_accepted (record : BlockCall → σ → σ) (table : String) (cols : List String)
    (blocks : List (List (List Val))) (total : ℕ) (s : Session σ) : ∃ server,
      submit (accepting record) table cols blocks total s =
        (⟨server, s.received ++ blocks.map fun block => ⟨table, block, cols⟩⟩,
          .ok (total + blocks.flatten.length)) := by
  induction blocks generalizing total s with
  | nil => exact ⟨s.server, by simp [submit]⟩
  | cons block blocks ih =>
    have hinsert : ∃ server, insertBlock (accepting record) ⟨table, block, cols⟩ s =
        (⟨server, s.received ++ [⟨table, block, cols⟩]⟩, .ok block.length) := by
      by_cases hb : block = []
      · exact ⟨s.server, by simp [insertBlock, hb]⟩
      · exact ⟨record ⟨table, block, cols⟩ s.server, by simp [insertBlock, hb, accepting]⟩
    obtain ⟨server, hinsert⟩ := hinsert
    obtain ⟨server', hrest⟩ := ih (total + block.length) ⟨server, s.received ++ [⟨table, block, cols⟩]⟩
    refine ⟨server', ?_⟩
    simp only [submit, hinsert, hrest]
    simp [Nat.add_assoc]

/-! ## Agreement -/

theorem foldl_add_rows [KafkaRow Row] (b : Batch Row) (rows : List Row) :
    (rows.foldl Batch.add b).rows = b.rows ++ rows := by
  induction rows generalizing b with
  | nil => simp
  | cons r rows ih => rw [List.foldl_cons, ih, Batch.add_rows, List.append_assoc, List.singleton_append]

/-- Rows added to a batch, materialised and inserted: `insert_block` receives non-empty blocks of at most `n` tuples
under the names `columns`, which make up the rows in order, each as its own fields under these names; the total is
their number. -/
def Agrees [KafkaRow Row] (toArrow : Batch Row → Except PyExc (Table String Val))
    (insertArrow : String → Table String Val → ℕ → Session σ → Session σ × Except LoadError ℕ)
    (columns : List String) (getattr : String → Row → Val) (b : Batch Row) (rows : List Row) (table : String)
    (n : ℕ) (server : σ) : Prop :=
  ∃ arrow, toArrow (rows.foldl Batch.add b) = .ok arrow ∧
    ∃ (server' : σ) (blocks : List (List (List Val))),
      insertArrow table arrow n ⟨server, []⟩ =
        (⟨server', blocks.map fun block => ⟨table, block, columns⟩⟩, .ok rows.length) ∧
      (∀ block ∈ blocks, block ≠ [] ∧ block.length ≤ n) ∧
      blocks.flatten = rows.map fun r => columns.map fun name => getattr name r

theorem Layout.agrees [KafkaRow Row] (L : Layout Row) (record : BlockCall → σ → σ) {b : Batch Row}
    (hb : b.rows = []) (rows : List Row) (table : String) {n : ℕ} (hn : 0 < n) (server : σ) :
    Agrees L.toArrow (L.insertArrow (accepting record)) L.columns L.getattr b rows table n server := by
  have hrows : (rows.foldl Batch.add b).rows = rows := by rw [foldl_add_rows, hb, List.nil_append]
  have harrow := L.toArrow_eq (rows.foldl Batch.add b)
  rw [hrows] at harrow
  have hflatten := L.flatten_blocks rows hn
  obtain ⟨server', hsubmit⟩ := submit_accepted record table L.columns (L.blocks rows n) 0 ⟨server, []⟩
  refine ⟨L.table rows, harrow, server', L.blocks rows n, ?_, fun block hb => Layout.mem_blocks hn hb, hflatten⟩
  rw [L.insertArrow_eq, hsubmit, hflatten]
  simp

/-- **Column-wise batch and row-wise landing agree**, for each event type. -/
theorem columns_agree (record : BlockCall → σ → σ) (server : σ) (table : String) (maxRows maxSeconds : ℤ)
    {n : ℕ} (hn : 0 < n) :
    (∀ rows, Agrees BronzeBatch.toArrow (postsInsertArrow (accepting record)) bronzeColumns
      BronzeRow.getattr (.init maxRows maxSeconds) rows table n server) ∧
    (∀ rows, Agrees LikesBatch.toArrow (likesInsertArrow (accepting record)) bronzeColumnsLikes
      LikeRow.getattr (.init maxRows maxSeconds) rows table n server) ∧
    ∀ rows, Agrees FollowsBatch.toArrow (followsInsertArrow (accepting record)) bronzeColumnsFollows
      FollowRow.getattr (.init maxRows maxSeconds) rows table n server := by
  refine ⟨?_, ?_, ?_⟩
  · intro rows
    exact postsLayout.agrees record rfl rows table hn server
  · intro rows
    exact likesLayout.agrees record rfl rows table hn server
  · intro rows
    exact followsLayout.agrees record rfl rows table hn server

/-- A like, at an offset of its partition. -/
def likeOf (rkey : String) (offset : ℕ) : LikeRow where
  did := "did:plc:author123"
  rkey := rkey
  cid := "bafylike"
  createdAt := ⟨1704067200000000, some 0⟩
  subjectUri := "at://did:plc:author456/app.bsky.feed.post/3kpostrkey"
  subjectCid := "bafypost"
  kafkaPartition := 0
  kafkaOffset := offset
  ingestTs := 1704067201000000

/-- Three likes in blocks of two: a full block, and one that is not. -/
theorem columns_agree_three :
    Agrees LikesBatch.toArrow (likesInsertArrow (accepting fun _ _ => ())) bronzeColumnsLikes LikeRow.getattr
      (.init 10000 5) [likeOf "a" 0, likeOf "b" 1, likeOf "c" 2] "likes_bronze_raw" 2 () ∧
    ((likesInsertArrow (accepting fun _ _ => ()) "likes_bronze_raw"
      (likesLayout.table [likeOf "a" 0, likeOf "b" 1, likeOf "c" 2]) 2 ⟨(), []⟩).1.received.map fun call =>
        call.rows.length) = [2, 1] :=
  ⟨(columns_agree (fun _ _ => ()) () "likes_bronze_raw" 10000 5 (by decide)).2.1 _, rfl⟩

end BlueskyTrends
