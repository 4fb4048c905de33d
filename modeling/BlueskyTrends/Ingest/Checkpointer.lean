import BlueskyTrends.Lib.Frontier
import Mathlib.Data.List.AList

/-!
# The cursor checkpointer

`_CursorCheckpointer` of `ingest/main.py`: the produced cursors not yet folded into
the watermark with their ack state, the watermark (`safeCursor`) and what was last
saved. Clock readings and durations are integers in one fixed unit.

* `advanceWatermark_lookup`, `advanceWatermark_safe`: one fold takes exactly the pending
  cursors below which every pending cursor is acked, and moves the watermark to the
  greatest of them.
* `onAck_folded`: the same of a delivery report, in the form the runs use.
-/

namespace BlueskyTrends

/-- The settings the ingest loop reads. -/
structure IngestSettings where
  cursorCheckpointAcks : ℤ
  cursorCheckpointSeconds : ℤ

/-- `_CursorCheckpointer`. -/
structure Checkpointer where
  pendingAcks : AList fun _ : ℤ => Bool
  safeCursor : Option ℤ
  savedCursor : Option ℤ
  acksSinceSave : ℕ
  lastSaveMonotonic : ℤ

namespace Checkpointer

/-- `__init__`, at clock reading `now`. -/
def init (now : ℤ) : Checkpointer := ⟨∅, none, none, 0, now⟩

/-- `register`: `setdefault(cursor, False)`. -/
def register (s : Checkpointer) (cursor : ℤ) : Checkpointer :=
  if cursor ∈ s.pendingAcks then s else { s with pendingAcks := s.pendingAcks.insert cursor false }

/-- The loop of `_advance_watermark`, over the sorted cursors `cs`. -/
def advance : List ℤ → Checkpointer → Checkpointer
  | [], s => s
  | c :: cs, s =>
    if s.pendingAcks.lookup c = some true then
      advance cs { s with
        safeCursor := some c
        pendingAcks := s.pendingAcks.erase c
        acksSinceSave := s.acksSinceSave + 1 }
    -- the first cursor that is not acked ends the fold
    else s

/-- `_advance_watermark`. -/
def advanceWatermark (s : Checkpointer) : Checkpointer :=
  advance (s.pendingAcks.keys.insertionSort (· ≤ ·)) s

/-- The assignment of `on_ack`: only a pending cursor is marked. -/
def mark (s : Checkpointer) (cursor : ℤ) : Checkpointer :=
  if cursor ∈ s.pendingAcks then { s with pendingAcks := s.pendingAcks.insert cursor true } else s

/-- `on_ack`. -/
def onAck (s : Checkpointer) (success : Bool) (cursor : ℤ) : Checkpointer :=
  if success then advanceWatermark (s.mark cursor) else s

/-- `_due`. -/
def due (st : IngestSettings) (s : Checkpointer) (now : ℤ) : Bool :=
  -- nothing new to save, else by count, else by age
  if s.safeCursor = none ∨ s.safeCursor = s.savedCursor then false
  else if st.cursorCheckpointAcks ≤ s.acksSinceSave then true
  else st.cursorCheckpointSeconds ≤ now - s.lastSaveMonotonic

/-- The value `maybe_save` passes to `store.save`, if it calls it. -/
def maybeSaveValue (st : IngestSettings) (s : Checkpointer) (now : ℤ) : Option ℤ :=
  if s.due st now then s.safeCursor else none

/-- `maybe_save`, when `store.save` returns. -/
def maybeSave (st : IngestSettings) (s : Checkpointer) (now : ℤ) : Checkpointer :=
  if s.due st now then
    { s with savedCursor := s.safeCursor, acksSinceSave := 0, lastSaveMonotonic := now }
  else s

/-- `maybe_save`, where `store.save` returns (`stored`) or raises; and whether it returns itself. -/
def tryMaybeSave (st : IngestSettings) (s : Checkpointer) (now : ℤ) (stored : Bool) : Checkpointer × Bool :=
  if s.due st now then
    -- the assignments come after the `await`
    if stored then
      ({ s with savedCursor := s.safeCursor, acksSinceSave := 0, lastSaveMonotonic := now }, true)
    else (s, false)
  else (s, true)

/-- The value `final_save` passes to `store.save`, if it calls it. -/
def finalSaveValue (s : Checkpointer) : Option ℤ :=
  if s.safeCursor ≠ s.savedCursor then s.safeCursor else none

/-- `final_save`, when `store.save` returns. -/
def finalSave (s : Checkpointer) : Checkpointer :=
  if s.safeCursor ≠ none ∧ s.safeCursor ≠ s.savedCursor then { s with savedCursor := s.safeCursor } else s

/-- `final_save`, where `store.save` returns (`stored`) or raises; and whether it returns itself. -/
def tryFinalSave (s : Checkpointer) (stored : Bool) : Checkpointer × Bool :=
  if s.safeCursor ≠ none ∧ s.safeCursor ≠ s.savedCursor then
    if stored then ({ s with savedCursor := s.safeCursor }, true) else (s, false)
  else (s, true)

/-! ## What the operations do -/

variable {s : Checkpointer} {c d : ℤ} {cs : List ℤ}

/-- The pending cursors. -/
def pending (s : Checkpointer) : Set ℤ := {c | c ∈ s.pendingAcks}

/-- The pending cursors marked as acked. -/
def marked (s : Checkpointer) : Set ℤ := {c | s.pendingAcks.lookup c = some true}

/-- The pending cursors the next fold takes. -/
def foldable (s : Checkpointer) : Set ℤ := Frontier.Covered s.pending s.marked

@[simp] theorem mem_pending : c ∈ s.pending ↔ c ∈ s.pendingAcks := Iff.rfl

theorem mem_pendingAcks : c ∈ s.pendingAcks ↔ ∃ b, s.pendingAcks.lookup c = some b := by
  rw [← Option.isSome_iff_exists, AList.lookup_isSome]

theorem register_lookup (s : Checkpointer) (c d : ℤ) :
    (s.register c).pendingAcks.lookup d =
      if d = c ∧ c ∉ s.pendingAcks then some false else s.pendingAcks.lookup d := by
  unfold register
  by_cases hc : c ∈ s.pendingAcks
  · simp [hc]
  · by_cases hd : d = c
    · subst hd; simp [hc]
    · simp [hc, hd]

@[simp] theorem register_safe (s : Checkpointer) (c : ℤ) : (s.register c).safeCursor = s.safeCursor := by
  unfold register; split <;> rfl

@[simp] theorem register_saved (s : Checkpointer) (c : ℤ) : (s.register c).savedCursor = s.savedCursor := by
  unfold register; split <;> rfl

@[simp] theorem register_acks (s : Checkpointer) (c : ℤ) : (s.register c).acksSinceSave = s.acksSinceSave := by
  unfold register; split <;> rfl

@[simp] theorem register_lastSave (s : Checkpointer) (c : ℤ) :
    (s.register c).lastSaveMonotonic = s.lastSaveMonotonic := by
  unfold register; split <;> rfl

theorem mem_register : d ∈ (s.register c).pendingAcks ↔ d = c ∨ d ∈ s.pendingAcks := by
  unfold register
  by_cases hc : c ∈ s.pendingAcks
  · rw [if_pos hc]
    exact ⟨Or.inr, fun h => h.elim (fun h => h ▸ hc) id⟩
  · rw [if_neg hc]; simp

theorem marked_register : (s.register c).marked = s.marked := by
  ext d
  simp only [marked, Set.mem_ofPred_eq, register_lookup]
  by_cases hd : d = c ∧ c ∉ s.pendingAcks
  · obtain ⟨rfl, hd⟩ := hd
    simp [hd, AList.lookup_eq_none.2 hd]
  · rw [if_neg hd]

theorem mark_lookup (s : Checkpointer) (c d : ℤ) :
    (s.mark c).pendingAcks.lookup d =
      if d = c ∧ c ∈ s.pendingAcks then some true else s.pendingAcks.lookup d := by
  unfold mark
  by_cases hc : c ∈ s.pendingAcks
  · by_cases hd : d = c
    · subst hd; simp [hc]
    · simp [hc, hd]
  · simp [hc]

@[simp] theorem mark_safe (s : Checkpointer) (c : ℤ) : (s.mark c).safeCursor = s.safeCursor := by
  unfold mark; split <;> rfl

@[simp] theorem mark_saved (s : Checkpointer) (c : ℤ) : (s.mark c).savedCursor = s.savedCursor := by
  unfold mark; split <;> rfl

@[simp] theorem mark_acks (s : Checkpointer) (c : ℤ) : (s.mark c).acksSinceSave = s.acksSinceSave := by
  unfold mark; split <;> rfl

@[simp] theorem mark_lastSave (s : Checkpointer) (c : ℤ) : (s.mark c).lastSaveMonotonic = s.lastSaveMonotonic := by
  unfold mark; split <;> rfl

theorem mem_mark : d ∈ (s.mark c).pendingAcks ↔ d ∈ s.pendingAcks := by
  unfold mark
  by_cases hc : c ∈ s.pendingAcks
  · rw [if_pos hc]
    simp only [AList.mem_insert, or_iff_right_iff_imp]
    rintro rfl; exact hc
  · rw [if_neg hc]

theorem pending_mark : (s.mark c).pending = s.pending := Set.ext fun _ => mem_mark

theorem mem_marked_mark : d ∈ (s.mark c).marked ↔ (d = c ∧ c ∈ s.pendingAcks) ∨ d ∈ s.marked := by
  simp only [marked, Set.mem_ofPred_eq, mark_lookup]
  by_cases hd : d = c ∧ c ∈ s.pendingAcks
  · simp [hd]
  · rw [if_neg hd]; simp [hd]

/-! ## The fold -/

/-- The leading run of `cs` that the fold takes. -/
def run (s : Checkpointer) (cs : List ℤ) : List ℤ :=
  cs.takeWhile fun c => s.pendingAcks.lookup c = some true

theorem run_cons_pos (hc : s.pendingAcks.lookup c = some true) : s.run (c :: cs) = c :: s.run cs :=
  List.takeWhile_cons_of_pos (by simpa using hc)

theorem run_cons_neg (hc : s.pendingAcks.lookup c ≠ some true) : s.run (c :: cs) = [] :=
  List.takeWhile_cons_of_neg (by simpa using hc)

/-- Taking one cursor out does not change the run after it. -/
theorem run_erase {t : Checkpointer} (ht : t.pendingAcks = s.pendingAcks.erase c)
    (hcs : (c :: cs).Pairwise (· < ·)) : t.run cs = s.run cs := by
  unfold run
  refine Frontier.takeWhile_congr fun d hd => ?_
  have hdc : d ≠ c := ((List.pairwise_cons.1 hcs).1 d hd).ne'
  rw [ht, AList.lookup_erase_ne hdc]

theorem advance_lookup (hcs : cs.Pairwise (· < ·)) :
    (advance cs s).pendingAcks.lookup d = if d ∈ s.run cs then none else s.pendingAcks.lookup d := by
  -- along the fold; the state changes with every cursor taken
  induction cs generalizing s with
  | nil => simp [advance, run]
  | cons c cs ih =>
    by_cases hc : s.pendingAcks.lookup c = some true
    · rw [advance, if_pos hc, ih (List.pairwise_cons.1 hcs).2, run_erase rfl hcs, run_cons_pos hc]
      by_cases hd : d = c
      · subst hd; simp
      · simp [hd]
    · rw [advance, if_neg hc, run_cons_neg hc]; simp

theorem advance_safe (hcs : cs.Pairwise (· < ·)) :
    (advance cs s).safeCursor = (s.run cs).getLast?.or s.safeCursor := by
  induction cs generalizing s with
  | nil => simp [advance, run]
  | cons c cs ih =>
    by_cases hc : s.pendingAcks.lookup c = some true
    · rw [advance, if_pos hc, ih (List.pairwise_cons.1 hcs).2, run_erase rfl hcs, run_cons_pos hc,
        List.getLast?_cons]
      cases (s.run cs).getLast? <;> rfl
    · rw [advance, if_neg hc, run_cons_neg hc]; rfl

theorem advance_saved (cs : List ℤ) (s : Checkpointer) : (advance cs s).savedCursor = s.savedCursor := by
  induction cs generalizing s with
  | nil => rfl
  | cons c cs ih =>
    rw [advance]
    split
    · rw [ih]
    · rfl

/-- Each cursor taken is counted. -/
theorem advance_acks (hcs : cs.Pairwise (· < ·)) :
    (advance cs s).acksSinceSave = s.acksSinceSave + (s.run cs).length := by
  induction cs generalizing s with
  | nil => simp [advance, run]
  | cons c cs ih =>
    by_cases hc : s.pendingAcks.lookup c = some true
    · rw [advance, if_pos hc, ih (List.pairwise_cons.1 hcs).2, run_erase rfl hcs, run_cons_pos hc,
        List.length_cons]
      simp only
      omega
    · rw [advance, if_neg hc, run_cons_neg hc]
      rfl

theorem advance_lastSave (cs : List ℤ) (s : Checkpointer) :
    (advance cs s).lastSaveMonotonic = s.lastSaveMonotonic := by
  induction cs generalizing s with
  | nil => rfl
  | cons c cs ih =>
    rw [advance]
    split
    · rw [ih]
    · rfl

/-- `sorted(self._pending_acks)`. -/
theorem sorted_keys (s : Checkpointer) :
    (s.pendingAcks.keys.insertionSort (· ≤ ·)).Pairwise (· < ·) := by
  have hle := List.pairwise_insertionSort (· ≤ · : ℤ → ℤ → Prop) s.pendingAcks.keys
  have hnd : (s.pendingAcks.keys.insertionSort (· ≤ ·)).Nodup :=
    (List.perm_insertionSort _ _).nodup_iff.2 s.pendingAcks.keys_nodup
  exact (hle.and hnd).imp fun h => lt_of_le_of_ne h.1 h.2

theorem mem_run_keys :
    c ∈ s.run (s.pendingAcks.keys.insertionSort (· ≤ ·)) ↔ c ∈ s.foldable := by
  rw [run, Frontier.mem_takeWhile_sorted s.sorted_keys]
  simp only [foldable, pending, marked, List.mem_insertionSort, ← AList.mem_keys, decide_eq_true_eq]

open Classical in
/-- **What a fold takes out of the pending cursors.** -/
theorem advanceWatermark_lookup (s : Checkpointer) (c : ℤ) :
    s.advanceWatermark.pendingAcks.lookup c =
      if c ∈ s.foldable then none else s.pendingAcks.lookup c := by
  rw [advanceWatermark, advance_lookup s.sorted_keys]
  simp only [mem_run_keys]

/-- **Where a fold leaves the watermark.** -/
theorem advanceWatermark_safe (s : Checkpointer) :
    (s.foldable = ∅ ∧ s.advanceWatermark.safeCursor = s.safeCursor) ∨
      ∃ v, IsGreatest s.foldable v ∧ s.advanceWatermark.safeCursor = some v := by
  rw [advanceWatermark, advance_safe s.sorted_keys]
  cases h : (s.run (s.pendingAcks.keys.insertionSort (· ≤ ·))).getLast? with
  | none =>
    refine Or.inl ⟨Set.eq_empty_iff_forall_notMem.2 fun c hc => ?_, rfl⟩
    rw [← mem_run_keys, List.getLast?_eq_none_iff.1 h] at hc
    simp at hc
  | some v =>
    refine Or.inr ⟨v, ?_, rfl⟩
    have := Frontier.getLast_takeWhile s.sorted_keys h
    simpa only [foldable, pending, marked, List.mem_insertionSort, ← AList.mem_keys,
      decide_eq_true_eq] using this

theorem mem_advanceWatermark :
    c ∈ s.advanceWatermark.pendingAcks ↔ c ∈ s.pendingAcks ∧ c ∉ s.foldable := by
  simp only [mem_pendingAcks, advanceWatermark_lookup]
  by_cases hc : c ∈ s.foldable <;> simp [hc]

/-- **What a successful ack does**: it takes out a downward closed part `F` of the pending
cursors, all acked before or by this report, and moves the watermark to the greatest of it. -/
structure Folded (s : Checkpointer) (c : ℤ) (F : Set ℤ) (s' : Checkpointer) : Prop where
  acked : ∀ d ∈ F, d ∈ s.pendingAcks ∧ (d = c ∨ s.pendingAcks.lookup d = some true)
  down : ∀ d ∈ s.pendingAcks, ∀ e ∈ F, d ≤ e → d ∈ F
  mem : ∀ d, d ∈ s'.pendingAcks ↔ d ∈ s.pendingAcks ∧ d ∉ F
  lookup : ∀ d, s'.pendingAcks.lookup d = some true → d = c ∨ s.pendingAcks.lookup d = some true
  safe : (F = ∅ ∧ s'.safeCursor = s.safeCursor) ∨ ∃ v, IsGreatest F v ∧ s'.safeCursor = some v

theorem onAck_folded (s : Checkpointer) (c : ℤ) : Folded s c (s.mark c).foldable (s.onAck true c) where
  acked := fun d hd => by
    refine ⟨mem_mark.1 hd.1, ?_⟩
    rcases mem_marked_mark.1 (Frontier.Covered.settled hd) with h | h
    · exact Or.inl h.1
    · exact Or.inr h
  down := fun d hd e he hde => Frontier.Covered.down he (mem_mark.2 hd) hde
  mem := fun d => by rw [onAck, if_pos rfl, mem_advanceWatermark, mem_mark]
  lookup := fun d hd => by
    rw [onAck, if_pos rfl, advanceWatermark_lookup] at hd
    split at hd
    · cases hd
    · exact (mem_marked_mark.1 hd).imp And.left id
  safe := by
    have h := (s.mark c).advanceWatermark_safe
    rw [mark_safe] at h
    rw [onAck, if_pos rfl]; exact h

@[simp] theorem onAck_false (s : Checkpointer) (c : ℤ) : s.onAck false c = s := rfl

theorem onAck_saved (s : Checkpointer) (success : Bool) (c : ℤ) :
    (s.onAck success c).savedCursor = s.savedCursor := by
  unfold onAck
  split
  · rw [advanceWatermark, advance_saved, mark_saved]
  · rfl

theorem onAck_lastSave (s : Checkpointer) (success : Bool) (c : ℤ) :
    (s.onAck success c).lastSaveMonotonic = s.lastSaveMonotonic := by
  unfold onAck
  split
  · rw [advanceWatermark, advance_lastSave, mark_lastSave]
  · rfl

/-- A successful ack counts the cursors that it folds. -/
theorem onAck_acks (s : Checkpointer) (c : ℤ) :
    (s.onAck true c).acksSinceSave =
      s.acksSinceSave + ((s.mark c).run ((s.mark c).pendingAcks.keys.insertionSort (· ≤ ·))).length := by
  rw [onAck, if_pos rfl, advanceWatermark, advance_acks (s.mark c).sorted_keys, mark_acks]

/-- The pending cursors lie above the watermark. -/
def Above (s : Checkpointer) : Prop := ∀ c ∈ s.pendingAcks, ∀ v, s.safeCursor = some v → v < c

/-- Where the pending cursors lie above it, the watermark only moves up. -/
theorem Above.safe_mono (h : s.Above) (c : ℤ) {v : ℤ} (hv : s.safeCursor = some v) :
    ∃ w, (s.onAck true c).safeCursor = some w ∧ v ≤ w := by
  have hf := s.onAck_folded c
  rcases hf.safe with ⟨-, hs⟩ | ⟨w, hw, hs⟩
  · exact ⟨v, hs.trans hv, le_rfl⟩
  · exact ⟨w, hs, (h w (hf.acked w hw.1).1 v hv).le⟩

@[simp] theorem maybeSave_pending (st : IngestSettings) (s : Checkpointer) (now : ℤ) :
    (s.maybeSave st now).pendingAcks = s.pendingAcks := by unfold maybeSave; split <;> rfl

@[simp] theorem maybeSave_safe (st : IngestSettings) (s : Checkpointer) (now : ℤ) :
    (s.maybeSave st now).safeCursor = s.safeCursor := by unfold maybeSave; split <;> rfl

@[simp] theorem finalSave_pending (s : Checkpointer) : s.finalSave.pendingAcks = s.pendingAcks := by
  unfold finalSave; split <;> rfl

@[simp] theorem finalSave_safe (s : Checkpointer) : s.finalSave.safeCursor = s.safeCursor := by
  unfold finalSave; split <;> rfl

/-- What `maybe_save` saves is the saved cursor from then on. -/
theorem maybeSave_saved (st : IngestSettings) (s : Checkpointer) (now : ℤ) :
    (s.maybeSave st now).savedCursor = (s.maybeSaveValue st now).or s.savedCursor := by
  unfold maybeSave maybeSaveValue
  by_cases hdue : s.due st now = true
  · obtain ⟨v, hv⟩ : ∃ v, s.safeCursor = some v := by
      rw [← Option.ne_none_iff_exists']
      intro hnone
      simp [due, hnone] at hdue
    rw [if_pos hdue, if_pos hdue, hv, Option.some_or]
  · rw [if_neg hdue, if_neg hdue, Option.none_or]

theorem finalSave_saved (s : Checkpointer) : s.finalSave.savedCursor = s.finalSaveValue.or s.savedCursor := by
  unfold finalSave finalSaveValue
  cases hsafe : s.safeCursor with
  | none => simp
  | some v =>
    by_cases hsaved : some v = s.savedCursor
    · simp [← hsaved]
    · simp [hsaved]

/-- What is saved is the watermark. -/
theorem maybeSaveValue_eq {st : IngestSettings} {now v : ℤ} (h : s.maybeSaveValue st now = some v) :
    s.safeCursor = some v := by
  unfold maybeSaveValue at h; split at h
  · exact h
  · cases h

theorem finalSaveValue_eq {v : ℤ} (h : s.finalSaveValue = some v) : s.safeCursor = some v := by
  unfold finalSaveValue at h; split at h
  · exact h
  · cases h

end Checkpointer

end BlueskyTrends
