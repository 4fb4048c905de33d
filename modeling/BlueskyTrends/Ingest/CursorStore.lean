import BlueskyTrends.Ingest.Service

/-!
# The cursor store

`CursorStore` of `ingest/cursor_store.py`: the table `ingest_cursors`, a row for each stream. Ingest
services of several streams share it.

* `load_save`, `nodup_save`: an upsert sets the cursor of its stream and of no other.
-/

namespace BlueskyTrends

/-- A row of `ingest_cursors`. -/
structure CursorRow where
  streamName : String
  cursor : ℤ
  deriving DecidableEq

/-- `ingest_cursors`, with the primary key `stream_name`. -/
structure CursorTable where
  rows : List CursorRow
  primary : (rows.map CursorRow.streamName).Nodup

namespace CursorTable

/-- `_SELECT`. -/
def load (t : CursorTable) (streamName : String) : Option ℤ :=
  (t.rows.find? fun r => r.streamName = streamName).map CursorRow.cursor

/-- The rows `_UPSERT` leaves. -/
def upsert (rows : List CursorRow) (streamName : String) (cursor : ℤ) : List CursorRow :=
  if rows.any fun r => r.streamName = streamName then
    -- `ON CONFLICT (stream_name) DO UPDATE`
    rows.map fun r => if r.streamName = streamName then ⟨streamName, cursor⟩ else r
  else rows ++ [⟨streamName, cursor⟩]

theorem names_upsert (rows : List CursorRow) (streamName : String) (cursor : ℤ) :
    (upsert rows streamName cursor).map CursorRow.streamName =
      if streamName ∈ rows.map CursorRow.streamName then rows.map CursorRow.streamName
      else rows.map CursorRow.streamName ++ [streamName] := by
  have hany : (rows.any fun r => r.streamName = streamName) = true ↔ streamName ∈ rows.map CursorRow.streamName := by
    simp [List.any_eq_true, List.mem_map]
  unfold upsert
  by_cases h : streamName ∈ rows.map CursorRow.streamName
  · rw [if_pos (hany.2 h), if_pos h, List.map_map]
    refine List.map_congr_left fun r _ => ?_
    simp only [Function.comp_apply]
    split
    · rename_i hr
      exact hr.symm
    · rfl
  · rw [if_neg (fun h' => h (hany.1 h')), if_neg h, List.map_append]
    rfl

/-- **No stream has two rows.** -/
theorem nodup_upsert {rows : List CursorRow} (h : (rows.map CursorRow.streamName).Nodup) (streamName : String)
    (cursor : ℤ) : ((upsert rows streamName cursor).map CursorRow.streamName).Nodup := by
  rw [names_upsert]
  split
  · exact h
  · rename_i hnew
    exact h.append (List.nodup_singleton _) (by simpa using hnew)

/-- `_UPSERT`. -/
def save (t : CursorTable) (streamName : String) (cursor : ℤ) : CursorTable :=
  ⟨upsert t.rows streamName cursor, nodup_upsert t.primary streamName cursor⟩

/-- **An upsert sets the cursor of its stream and of no other.** -/
theorem load_save (t : CursorTable) (streamName name : String) (cursor : ℤ) :
    (t.save streamName cursor).load name = if name = streamName then some cursor else t.load name := by
  have hmap : ∀ rows : List CursorRow, (∃ r ∈ rows, r.streamName = streamName) → name = streamName →
      ((rows.map fun r => if r.streamName = streamName then (⟨streamName, cursor⟩ : CursorRow) else r).find?
        fun r => r.streamName = name).map CursorRow.cursor = some cursor := by
    rintro rows ⟨r, hr, hname⟩ rfl
    induction rows with
    | nil => cases hr
    | cons x rows ih =>
      rw [List.map_cons]
      by_cases hx : x.streamName = name
      · rw [if_pos hx, List.find?_cons_of_pos (by simp)]
        rfl
      · rw [if_neg hx, List.find?_cons_of_neg (by simpa using hx)]
        rcases List.mem_cons.1 hr with rfl | hr
        · exact absurd hname hx
        · exact ih hr
  have hkeep : ∀ rows : List CursorRow, name ≠ streamName →
      (rows.map fun r => if r.streamName = streamName then (⟨streamName, cursor⟩ : CursorRow) else r).find?
        (fun r => r.streamName = name) = rows.find? fun r => r.streamName = name := by
    intro rows hne
    induction rows with
    | nil => rfl
    | cons x rows ih =>
      rw [List.map_cons]
      by_cases hx : x.streamName = streamName
      · rw [if_pos hx, List.find?_cons_of_neg (by simpa using hne.symm), ih,
          List.find?_cons_of_neg (by simpa [hx] using hne.symm)]
      · rw [if_neg hx, List.find?_cons, List.find?_cons, ih]
  unfold load save upsert
  by_cases hany : (t.rows.any fun r => r.streamName = streamName) = true
  · simp only [hany, if_true]
    split
    · rename_i hname
      obtain ⟨r, hr, hrn⟩ := List.any_eq_true.1 hany
      exact hmap t.rows ⟨r, hr, by simpa using hrn⟩ hname
    · rename_i hne
      rw [hkeep t.rows hne]
  · simp only [hany, Bool.false_eq_true, if_false]
    have hnone : t.rows.find? (fun r => r.streamName = streamName) = none := by
      rw [List.find?_eq_none]
      intro r hr hrn
      exact hany (List.any_eq_true.2 ⟨r, hr, hrn⟩)
    split
    · rename_i hname
      rw [hname, List.find?_append, hnone]
      simp
    · rename_i hne
      rw [List.find?_append]
      cases t.rows.find? fun r => r.streamName = name with
      | some r => rfl
      | none =>
        have hnew : [(⟨streamName, cursor⟩ : CursorRow)].find? (fun r => r.streamName = name) = none := by
          simpa using Ne.symm hne
        rw [hnew]
        rfl

end CursorTable

/-! ## Services on one store -/

/-- What a step of a service writes to the store. -/
def Service.writes (st : IngestSettings) (s : Service) : Service.Act → Option ℤ
  | .call => s.life.bind fun l => l.proc.saves st .call
  | .raise true => s.life.bind fun l => l.proc.saves st .raise
  | _ => none

/-- The services of several streams: the shared table, and of each service what is its own. -/
structure Fleet where
  table : CursorTable
  services : String → Service

namespace Fleet

/-- What a service sees: its own state, and its row of the table. -/
def view (f : Fleet) (name : String) : Service := { f.services name with stored := f.table.load name }

/-- Before the first service starts. -/
def init (table : CursorTable) : Fleet := ⟨table, fun _ => .init none⟩

/-- The service of stream `a.1` takes the step `a.2`. -/
def step (H : Host) (st : String → IngestSettings) (log : String → SourceLog) (f : Fleet)
    (a : String × Service.Act) : Fleet where
  table := ((f.view a.1).writes (st a.1) a.2).elim f.table (f.table.save a.1)
  services := Function.update f.services a.1 ((f.view a.1).step H (st a.1) (log a.1) a.2)

end Fleet

end BlueskyTrends
