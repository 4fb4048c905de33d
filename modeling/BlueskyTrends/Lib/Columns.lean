import Mathlib.Tactic

/-!
# Tables held by column

A table is a list of named columns of one length. It is made from rows by laying out the value of each under each
name, and read as rows by zipping columns.

* `ofColumns?_ofRows`: columns filled from rows make a table.
* `select_ofRows`, `slice_ofRows`: a choice of columns and a stretch of rows are those of the rows.
* `zipStrict_map`: columns laid out from rows zip to their tuples.
* `tuples_ofRows`: **a table laid out from rows is read back as them.**
-/

namespace Columns

variable {κ α ρ : Type*}

/-- A table: `numRows` values under each name. -/
@[ext] structure Table (κ α : Type*) where
  numRows : ℕ
  columns : List (κ × List α)
  rect : ∀ c ∈ columns, c.2.length = numRows

/-- The columns zipped to tuples, `none` if they differ in length. -/
def zipStrict : List (List α) → Option (List (List α))
  | [] => some []
  | [c] => some (c.map fun x => [x])
  | c :: d :: cs => (zipStrict (d :: cs)).bind fun rows =>
    if c.length = rows.length then some (List.zipWith List.cons c rows) else none

theorem zipWith_cons_map (f : ρ → α) (g : ρ → List α) (rows : List ρ) :
    List.zipWith List.cons (rows.map f) (rows.map g) = rows.map fun r => f r :: g r := by
  induction rows with
  | nil => rfl
  | cons r rows ih => simp only [List.map_cons, List.zipWith_cons_cons, ih]

/-- **Columns laid out from rows zip to their tuples.** -/
theorem zipStrict_map {fs : List (ρ → α)} (hfs : fs ≠ []) (rows : List ρ) :
    zipStrict (fs.map fun f => rows.map f) = some (rows.map fun r => fs.map fun f => f r) := by
  -- on the fields: one more column puts one more value before each tuple
  induction fs with
  | nil => exact absurd rfl hfs
  | cons f fs ih =>
    cases fs with
    | nil => simp [zipStrict]
    | cons g gs =>
      have htail := ih (List.cons_ne_nil g gs)
      simp only [List.map_cons] at htail ⊢
      rw [zipStrict, htail, Option.bind_some, List.length_map, List.length_map, if_pos rfl, zipWith_cons_map]

/-- What is laid out under a name. -/
theorem lookup_laid [BEq κ] [LawfulBEq κ] {names : List κ} {k : κ} {f : κ → α} (hk : k ∈ names) :
    (names.map fun j => (j, f j)).lookup k = some (f k) := by
  induction names with
  | nil => cases hk
  | cons j names ih =>
    rw [List.map_cons, List.lookup_cons]
    by_cases hj : k = j
    · subst hj
      simp
    · have hbeq : (k == j) = false := by simpa using hj
      rw [hbeq]
      exact ih ((List.mem_cons.1 hk).resolve_left hj)

namespace Table

/-- The table of columns of one length. -/
def ofColumns? (columns : List (κ × List α)) : Option (Table κ α) :=
  let numRows := (columns.head?.map fun c => c.2.length).getD 0
  if h : ∀ c ∈ columns, c.2.length = numRows then some ⟨numRows, columns, h⟩ else none

/-- The rows `start`, `start + 1` and on, at most `n`. -/
def slice (t : Table κ α) (start n : ℕ) : Table κ α where
  numRows := min n (t.numRows - start)
  columns := t.columns.map fun c => (c.1, (c.2.drop start).take n)
  rect := by
    intro c hc
    obtain ⟨d, hd, rfl⟩ := List.mem_map.1 hc
    rw [List.length_take, List.length_drop, t.rect d hd]

/-- The values of `rows` laid out under each name. -/
def ofRows (attr : κ → ρ → α) (names : List κ) (rows : List ρ) : Table κ α where
  numRows := rows.length
  columns := names.map fun k => (k, rows.map (attr k))
  rect := by
    intro c hc
    obtain ⟨k, -, rfl⟩ := List.mem_map.1 hc
    exact List.length_map _

variable [BEq κ] [LawfulBEq κ]

/-- The column under a name. -/
def column (t : Table κ α) (k : κ) : Option (List α) := t.columns.lookup k

theorem length_column {t : Table κ α} {k : κ} {c : List α} (h : t.column k = some c) : c.length = t.numRows := by
  obtain ⟨l, l', hl, -⟩ := List.lookup_eq_some_iff.1 h
  exact t.rect (k, c) (by rw [hl]; simp)

/-- The columns under the names `ks`, in their order. -/
def select (t : Table κ α) (ks : List κ) : Option (Table κ α) :=
  if h : ∀ k ∈ ks, (t.column k).isSome then
    some {
      numRows := t.numRows
      columns := ks.map fun k => (k, (t.column k).getD [])
      rect := by
        intro c hc
        obtain ⟨k, hk, rfl⟩ := List.mem_map.1 hc
        obtain ⟨d, hd⟩ := Option.isSome_iff_exists.1 (h k hk)
        rw [hd]
        exact length_column hd }
  else none

/-- The rows, as tuples of the values under the names `ks`. -/
def tuples (t : Table κ α) (ks : List κ) : Option (List (List α)) := (ks.mapM t.column).bind zipStrict

/-! ## Tables laid out from rows -/

variable {attr : κ → ρ → α} {names ks : List κ} {k : κ} {rows : List ρ}

theorem column_ofRows (hk : k ∈ names) : (ofRows attr names rows).column k = some (rows.map (attr k)) :=
  lookup_laid hk

omit [BEq κ] [LawfulBEq κ] in
/-- Columns filled from rows are of one length. -/
theorem ofColumns?_ofRows (hne : names ≠ []) :
    ofColumns? (names.map fun k => (k, rows.map (attr k))) = some (ofRows attr names rows) := by
  obtain ⟨k, ks, rfl⟩ := List.exists_cons_of_ne_nil hne
  have hnum : (((k :: ks).map fun k => (k, rows.map (attr k))).head?.map fun c => c.2.length).getD 0 =
      rows.length := by simp
  have hall : ∀ c ∈ (k :: ks).map fun k => (k, rows.map (attr k)), c.2.length = rows.length :=
    (ofRows attr (k :: ks) rows).rect
  simp only [ofColumns?, hnum, dif_pos hall]
  rfl

/-- **Columns chosen.** -/
theorem select_ofRows (hks : ∀ k ∈ ks, k ∈ names) :
    (ofRows attr names rows).select ks = some (ofRows attr ks rows) := by
  have hsome : ∀ k ∈ ks, ((ofRows attr names rows).column k).isSome := by
    intro k hk
    rw [column_ofRows (hks k hk)]
    rfl
  rw [select, dif_pos hsome, Option.some.injEq]
  refine Table.ext rfl (List.map_congr_left fun k hk => ?_)
  rw [column_ofRows (hks k hk)]
  rfl

omit [BEq κ] [LawfulBEq κ] in
/-- **A stretch of rows.** -/
theorem slice_ofRows (start n : ℕ) :
    (ofRows attr names rows).slice start n = ofRows attr names ((rows.drop start).take n) := by
  refine Table.ext ?_ ?_
  · simp [slice, ofRows]
  · simp [slice, ofRows, List.map_take, List.map_drop]

theorem columns_ofRows (hks : ∀ k ∈ ks, k ∈ names) :
    ks.mapM (ofRows attr names rows).column = some (ks.map fun k => rows.map (attr k)) := by
  induction ks with
  | nil => rfl
  | cons k ks ih =>
    have htail := ih fun j hj => hks j (List.mem_cons_of_mem k hj)
    rw [List.mapM_cons, column_ofRows (hks k List.mem_cons_self), htail]
    rfl

/-- **A table laid out from rows is read back as them.** -/
theorem tuples_ofRows (hne : ks ≠ []) (hks : ∀ k ∈ ks, k ∈ names) :
    (ofRows attr names rows).tuples ks = some (rows.map fun r => ks.map fun k => attr k r) := by
  have hfs : ks.map attr ≠ [] := by simpa using hne
  have hzip := zipStrict_map hfs rows
  rw [List.map_map] at hzip
  rw [tuples, columns_ofRows hks, Option.bind_some]
  simpa [Function.comp_def] using hzip

end Table

end Columns
