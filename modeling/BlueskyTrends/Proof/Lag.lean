import BlueskyTrends.Proof.Watermark
import BlueskyTrends.Lib.Trace

/-!
# How far the saved cursor lags behind

The checkpointer counts the cursors it has folded since its last save. With increasing registrations they are
exactly the registered cursors that a restart from the saved cursor replays although they are acked.

* `accounted_step`: registrations, reports and saves keep the count.
* `lag_exact`: the count is exact, below its bound after each `maybe_save`, and 0 after `final_save`.
-/

namespace BlueskyTrends

open Frontier Checkpointer AckCall

variable {st : IngestSettings} {c now : ℤ}

/-- The registered cursors above the saved one and not above the watermark. -/
def lag (registered : List ℤ) (s : Checkpointer) : ℕ :=
  registered.countP fun c => s.savedCursor.all (· < c) && s.safeCursor.any (c ≤ ·)

/-- A checkpointer with the calls made on it, and the time of its last save or of its construction. -/
structure Checkpoints where
  cp : Checkpointer
  calls : List AckCall
  lastSave : ℤ

/-- A registration, a delivery report, or a `maybe_save` whose `store.save` returns (`stored`) or raises. -/
inductive CheckpointAct where
  | ack (a : AckCall)
  | maybeSave (now : ℤ) (stored : Bool)

namespace Checkpoints

def init (now : ℤ) : Checkpoints := ⟨.init now, [], now⟩

def step (st : IngestSettings) (s : Checkpoints) : CheckpointAct → Checkpoints
  | .ack a => { s with cp := s.cp.call a, calls := s.calls ++ [a] }
  | .maybeSave now stored => { s with
      cp := (s.cp.tryMaybeSave st now stored).1
      lastSave := if (s.cp.maybeSaveValue st now).isSome && stored then now else s.lastSave }

/-- The cursors registered. -/
def registered (s : Checkpoints) : List ℤ := AckCall.registered s.calls

/-- The count of acks since the last save is exact. -/
structure Accounted (s : Checkpoints) : Prop where
  exact : Exact s.calls s.cp
  count : s.cp.acksSinceSave = lag s.registered s.cp
  saved : ∀ u, s.cp.savedCursor = some u → ∃ v, s.cp.safeCursor = some v ∧ u ≤ v
  last : s.cp.lastSaveMonotonic = s.lastSave

/-- Without a watermark nothing is saved. -/
theorem Accounted.saved_none {s : Checkpoints} (h : s.Accounted) (hn : s.cp.safeCursor = none) :
    s.cp.savedCursor = none := by
  cases hu : s.cp.savedCursor with
  | none => rfl
  | some u =>
    obtain ⟨v, hv, -⟩ := h.saved u hu
    rw [hn] at hv
    cases hv

theorem accounted_init (now : ℤ) : (init now).Accounted where
  exact := Exact.init now
  count := rfl
  saved := by simp [init, Checkpointer.init]
  last := rfl

variable {s : Checkpoints}

/-- A registered cursor is not above the watermark exactly if it is settled. -/
theorem any_safe_iff {calls : List AckCall} {cp : Checkpointer} (h : Exact calls cp)
    (hc : c ∈ AckCall.registered calls) : cp.safeCursor.any (c ≤ ·) = true ↔ c ∈ settled calls := by
  have habove := IsMark.lt_iff h.safe hc
  have hnot : cp.safeCursor.any (c ≤ ·) = false ↔ ∀ v, cp.safeCursor = some v → v < c := by
    cases cp.safeCursor <;> simp
  constructor
  · intro hany
    by_contra hns
    rw [hnot.2 (habove.1 hns)] at hany
    cases hany
  · intro hs
    by_contra hany
    exact habove.2 (hnot.1 (Bool.not_eq_true _ ▸ hany)) hs

/-- The watermark is a registered cursor. -/
theorem safe_registered {calls : List AckCall} {cp : Checkpointer} (h : Exact calls cp) {v : ℤ}
    (hv : cp.safeCursor = some v) : v ∈ AckCall.registered calls := by
  have hmark := h.safe
  rw [hv] at hmark
  exact (mem_settled.1 hmark.1).1

/-- A new cursor, above the watermark, does not count. -/
theorem Accounted.register (h : s.Accounted) (hc : ∀ d ∈ s.registered, d < c) :
    (s.step st (.ack (.register c))).Accounted := by
  refine ⟨h.exact.register hc, ?_, ?_, (register_lastSave _ _).trans h.last⟩
  · have hnew : s.cp.safeCursor.any (c ≤ ·) = false := by
      cases hv : s.cp.safeCursor with
      | none => rfl
      | some v =>
        have hlt := hc v (safe_registered h.exact hv)
        simpa using hlt
    have hcount := h.count
    simp only [lag, Checkpoints.registered, step, Checkpointer.call, registered_snoc, registered?, register_saved,
      register_acks, register_safe, Option.toList, List.countP_append, List.countP_cons, List.countP_nil, hnew,
      Bool.and_false] at hcount ⊢
    simpa using hcount
  · intro u hu
    simp only [step, Checkpointer.call, register_saved, register_safe] at hu ⊢
    exact h.saved u hu

/-- The fold that a report starts settles what it takes. -/
theorem settled_onAck {calls : List AckCall} {cp : Checkpointer} (h : Exact calls cp) {d : ℤ}
    (hd : d ∈ AckCall.registered calls) :
    d ∈ settled (calls ++ [.onAck true c]) ↔ d ∈ settled calls ∨ d ∈ (cp.mark c).foldable := by
  have hreg : d ∈ AckCall.registered (calls ++ [.onAck true c]) := by
    rw [registered_snoc]
    exact List.mem_append_left _ hd
  have hold := h.mem (c := d)
  have hnew := h.onAck_true (c := c) |>.mem (c := d)
  rw [Checkpointer.onAck, if_pos rfl, mem_advanceWatermark, mem_mark] at hnew
  -- what is pending is what is not settled, before and after
  have hbefore : d ∈ cp.pendingAcks ↔ d ∉ settled calls := hold.trans (and_iff_right hd)
  have hafter := hnew.trans (and_iff_right hreg)
  rw [hbefore, ← not_or] at hafter
  exact (not_iff_not.1 hafter).symm

/-- A count split by a part of what is counted. -/
theorem countP_split {l : List ℤ} {p q r : ℤ → Bool} (h : ∀ d ∈ l, p d = (q d || r d))
    (hqr : ∀ d ∈ l, q d = true → r d = false) : l.countP p = l.countP q + l.countP r := by
  induction l with
  | nil => rfl
  | cons a l ih =>
    have htail := ih (fun d hd => h d (List.mem_cons_of_mem _ hd)) fun d hd => hqr d (List.mem_cons_of_mem _ hd)
    have hhead := h a List.mem_cons_self
    have hone := hqr a List.mem_cons_self
    simp only [List.countP_cons, htail, hhead]
    cases hq : q a <;> cases hr : r a <;> simp_all <;> omega

/-- The elements of a part are counted by its length. -/
theorem countP_mem {l part : List ℤ} (hl : l.Nodup) (hpart : part.Nodup) (hsub : part ⊆ l) :
    l.countP (· ∈ part) = part.length := by
  have hperm : (l.filter (· ∈ part)).Perm part := by
    refine (List.perm_ext_iff_of_nodup (hl.filter _) hpart).2 fun d => ?_
    have hd : d ∈ part → d ∈ l := fun hd => hsub hd
    simp only [List.mem_filter, decide_eq_true_eq]
    tauto
  rw [List.countP_eq_length_filter, hperm.length_eq]

/-- A registered cursor that is not settled lies above the saved one. -/
theorem Accounted.saved_lt (h : s.Accounted) {d : ℤ} (hd : d ∈ s.registered) (hns : d ∉ settled s.calls) :
    s.cp.savedCursor.all (· < d) = true := by
  cases hu : s.cp.savedCursor with
  | none => rfl
  | some u =>
    obtain ⟨v, hv, huv⟩ := h.saved u hu
    have hvd := (IsMark.lt_iff h.exact.safe hd).1 hns v hv
    simpa using huv.trans_lt hvd

/-- The cursors that a report folds, ascending. -/
def folded (cp : Checkpointer) (c : ℤ) : List ℤ :=
  (cp.mark c).run ((cp.mark c).pendingAcks.keys.insertionSort (· ≤ ·))

theorem nodup_folded (cp : Checkpointer) (c : ℤ) : (folded cp c).Nodup := by
  have hsorted : (folded cp c).Pairwise (· < ·) := (cp.mark c).sorted_keys.sublist (List.takeWhile_sublist _)
  exact hsorted.imp fun hlt => hlt.ne

/-- They were pending: registered and not settled. -/
theorem Accounted.folded_pending (h : s.Accounted) {d : ℤ} (hd : d ∈ folded s.cp c) :
    d ∈ s.registered ∧ d ∉ settled s.calls := by
  have hp : d ∈ (s.cp.mark c).pendingAcks := (mem_run_keys.1 hd).1
  exact h.exact.mem.1 (mem_mark.1 hp)

/-- What a report adds to the lag is what it folds. -/
theorem Accounted.lag_onAck (h : s.Accounted) (hinc : s.registered.Pairwise (· < ·)) :
    lag s.registered (s.cp.onAck true c) = lag s.registered s.cp + (folded s.cp c).length := by
  have hexact := h.exact.onAck_true (c := c)
  have hlen : s.registered.countP (· ∈ folded s.cp c) = (folded s.cp c).length := by
    refine countP_mem ?_ (nodup_folded s.cp c) fun d hd => (h.folded_pending hd).1
    exact hinc.imp fun hlt => hlt.ne
  rw [← hlen]
  refine countP_split (fun d hd => ?_) (fun d hd hq => ?_)
  · have hd' : d ∈ AckCall.registered (s.calls ++ [.onAck true c]) := by
      rw [registered_snoc]
      exact List.mem_append_left _ hd
    have hold := any_safe_iff h.exact hd
    have hnew := any_safe_iff hexact hd'
    have hset := settled_onAck h.exact (c := c) hd
    have hmem : d ∈ folded s.cp c ↔ d ∈ (s.cp.mark c).foldable := mem_run_keys
    have habove : d ∈ folded s.cp c → s.cp.savedCursor.all (· < d) = true := by
      intro hdf
      exact h.saved_lt hd (h.folded_pending hdf).2
    rw [Bool.eq_iff_iff]
    simp only [onAck_saved, Bool.and_eq_true, Bool.or_eq_true, decide_eq_true_eq]
    -- what is folded counts already before, as it lies above the saved cursor
    rw [hold, hnew, hset, ← hmem, and_or_left, and_iff_right_of_imp habove]
  · have hold := any_safe_iff h.exact hd
    simp only [Bool.and_eq_true] at hq
    simp only [decide_eq_false_iff_not]
    exact fun hdf => (h.folded_pending hdf).2 (hold.1 hq.2)

/-- **A successful report** counts each cursor that it folds. -/
theorem Accounted.onAck (h : s.Accounted) (hinc : s.registered.Pairwise (· < ·)) :
    (s.step st (.ack (.onAck true c))).Accounted := by
  have hreg : (s.step st (.ack (.onAck true c))).registered = s.registered := by
    simp [Checkpoints.registered, step, registered_snoc, registered?]
  refine ⟨h.exact.onAck_true, ?_, ?_, (onAck_lastSave _ _ _).trans h.last⟩
  · have hcount := h.count
    have hacks : (s.cp.onAck true c).acksSinceSave = s.cp.acksSinceSave + (folded s.cp c).length := onAck_acks s.cp c
    have hlag := h.lag_onAck (c := c) hinc
    rw [hreg]
    change (s.cp.onAck true c).acksSinceSave = lag s.registered (s.cp.onAck true c)
    omega
  · intro u hu
    have hu' : s.cp.savedCursor = some u := (onAck_saved s.cp true c) ▸ hu
    obtain ⟨v, hv, huv⟩ := h.saved u hu'
    have hab : s.cp.Above := by
      intro d hd w hw
      have hp := h.exact.mem.1 hd
      exact (IsMark.lt_iff h.exact.safe hp.1).1 hp.2 w hw
    obtain ⟨w, hw, hvw⟩ := hab.safe_mono c hv
    exact ⟨w, hw, huv.trans hvw⟩

/-- A save sets the saved cursor to the watermark, so that nothing is left to count. -/
theorem lag_saved (registered : List ℤ) {s : Checkpointer} (h : s.savedCursor = s.safeCursor) :
    lag registered s = 0 := by
  refine List.countP_eq_zero.2 fun d _ => ?_
  rw [h]
  cases s.safeCursor <;> simp

/-- What `maybe_save` leaves: all as it is, or everything saved. -/
theorem tryMaybeSave_cases (st : IngestSettings) (cp : Checkpointer) (now : ℤ) (stored : Bool) :
    (¬ (cp.due st now = true ∧ stored = true) ∧ (cp.tryMaybeSave st now stored).1 = cp) ∨
      (cp.due st now = true ∧ stored = true ∧ (cp.tryMaybeSave st now stored).1 =
        { cp with savedCursor := cp.safeCursor, acksSinceSave := 0, lastSaveMonotonic := now }) := by
  unfold tryMaybeSave
  cases cp.due st now <;> cases stored <;> simp

theorem maybeSaveValue_isSome (st : IngestSettings) (cp : Checkpointer) (now : ℤ) :
    (cp.maybeSaveValue st now).isSome = cp.due st now := by
  unfold maybeSaveValue
  cases hd : cp.due st now with
  | false => rfl
  | true =>
    -- without a watermark nothing is due
    have hsome : cp.safeCursor ≠ none := by
      intro hn
      simp [due, hn] at hd
    rw [if_pos rfl, Option.isSome_iff_ne_none]
    exact hsome

/-- **A `maybe_save`** either leaves the state or saves the watermark. -/
theorem Accounted.maybeSave (h : s.Accounted) (stored : Bool) :
    (s.step st (.maybeSave now stored)).Accounted := by
  have hvalue := maybeSaveValue_isSome st s.cp now
  rcases tryMaybeSave_cases st s.cp now stored with ⟨hno, hs⟩ | ⟨hd, ht, hs⟩
  · have hlast : (if (s.cp.maybeSaveValue st now).isSome && stored then now else s.lastSave) = s.lastSave := by
      rw [hvalue, if_neg (by simpa using hno)]
    have hstep : s.step st (.maybeSave now stored) = s := by
      simp only [step, hs, hlast]
    rw [hstep]
    exact h
  · have hlast : (if (s.cp.maybeSaveValue st now).isSome && stored then now else s.lastSave) = now := by
      rw [hvalue, hd, ht]
      rfl
    simp only [step, hs, hlast]
    refine ⟨⟨h.exact.safe, h.exact.lookup⟩, ?_, ?_, rfl⟩
    · exact (lag_saved _ rfl).symm
    · intro u hu
      exact ⟨u, hu, le_rfl⟩

/-- Where no save is due, the watermark is saved or both bounds hold. -/
theorem Accounted.not_due (h : s.Accounted) (hd : s.cp.due st now = false) :
    s.cp.savedCursor = s.cp.safeCursor ∨
      ((s.cp.acksSinceSave : ℤ) < st.cursorCheckpointAcks ∧ now - s.lastSave < st.cursorCheckpointSeconds) := by
  have hlast := h.last
  unfold due at hd
  split at hd
  · rename_i hsafe
    left
    rcases hsafe with hn | heq
    · rw [h.saved_none hn, hn]
    · exact heq.symm
  · split at hd
    · cases hd
    · have hT : ¬ st.cursorCheckpointSeconds ≤ now - s.cp.lastSaveMonotonic := by simpa using hd
      right
      constructor <;> omega

/-- **After a `maybe_save` that returns** the watermark is saved or both bounds hold. -/
theorem Accounted.maybeSave_returns (h : s.Accounted) {stored : Bool}
    (hret : (s.cp.tryMaybeSave st now stored).2 = true) :
    (s.step st (.maybeSave now stored)).cp.savedCursor = (s.step st (.maybeSave now stored)).cp.safeCursor ∨
      (((s.step st (.maybeSave now stored)).cp.acksSinceSave : ℤ) < st.cursorCheckpointAcks ∧
        now - (s.step st (.maybeSave now stored)).lastSave < st.cursorCheckpointSeconds) := by
  have hvalue := maybeSaveValue_isSome st s.cp now
  cases hd : s.cp.due st now with
  | false =>
    have hstep : s.step st (.maybeSave now stored) = s := by
      simp [step, tryMaybeSave, hvalue, hd]
    rw [hstep]
    exact h.not_due hd
  | true =>
    have hstored : stored = true := by
      cases stored with
      | true => rfl
      | false => simp [tryMaybeSave, hd] at hret
    left
    simp [step, tryMaybeSave, hd, hstored]

/-- **After a `final_save` that returns** the watermark is saved. -/
theorem Accounted.finalSave_returns (h : s.Accounted) {stored : Bool}
    (hret : (s.cp.tryFinalSave stored).2 = true) :
    (s.cp.tryFinalSave stored).1.savedCursor = (s.cp.tryFinalSave stored).1.safeCursor := by
  unfold tryFinalSave at hret ⊢
  by_cases hunsaved : s.cp.safeCursor ≠ none ∧ s.cp.safeCursor ≠ s.cp.savedCursor
  · cases stored with
    | true => rw [if_pos hunsaved, if_pos rfl]
    | false => simp [hunsaved] at hret
  · rw [if_neg hunsaved]
    by_cases hn : s.cp.safeCursor = none
    · rw [h.saved_none hn, hn]
    · by_contra hne
      exact hunsaved ⟨hn, fun heq => hne heq.symm⟩

/-- **One step keeps the account**, when a registration is above those before it. -/
theorem accounted_step (h : s.Accounted) (a : CheckpointAct)
    (hinc : (s.step st a).registered.Pairwise (· < ·)) : (s.step st a).Accounted := by
  cases a with
  | maybeSave now stored => exact h.maybeSave stored
  | ack a =>
    have hreg : (s.step st (.ack a)).registered = s.registered ++ a.registered?.toList := registered_snoc a
    rw [hreg, List.pairwise_append] at hinc
    cases a with
    | register c => exact h.register fun d hd => hinc.2.2 d hd c (by simp [registered?])
    | onAck ok c =>
      cases ok with
      | true => exact h.onAck hinc.1
      | false =>
        have hreg' : (s.step st (.ack (.onAck false c))).registered = s.registered := by simp [hreg, registered?]
        refine ⟨h.exact.onAck_false, ?_, h.saved, h.last⟩
        rw [hreg']
        exact h.count

/-- Registrations are only added. -/
theorem registered_grows (st : IngestSettings) (s : Checkpoints) (a : CheckpointAct) :
    s.registered <+: (s.step st a).registered := by
  cases a with
  | ack a => exact ⟨_, (registered_snoc a).symm⟩
  | maybeSave now stored => exact List.prefix_rfl

/-- **Every run keeps the account.** -/
theorem accounted_run (st : IngestSettings) (now : ℤ) (as : List CheckpointAct)
    (hinc : (Trace.run (step st) (init now) as).registered.Pairwise (· < ·)) :
    (Trace.run (step st) (init now) as).Accounted := by
  -- on the last action: all registrations so far are increasing
  induction as using List.reverseRecOn with
  | nil => exact accounted_init now
  | append_singleton as a ih =>
    rw [Trace.run_append, Trace.run_cons, Trace.run_nil] at hinc ⊢
    have hbefore := hinc.sublist (registered_grows st _ a).sublist
    exact accounted_step (ih hbefore) a hinc

end Checkpoints

open Checkpoints

/-- **The checkpoint lag is exact and bounded.** After any registrations, in increasing order, reports and saves,
`_acks_since_save` is the number of registered cursors above the saved cursor and not above the watermark. A
`maybe_save` that raises leaves the state; one that returns leaves the watermark saved, or fewer than
`cursor_checkpoint_acks` such cursors less than `cursor_checkpoint_seconds` after the last save. A `final_save` that
returns leaves none. -/
theorem lag_exact (st : IngestSettings) (hN : 1 ≤ st.cursorCheckpointAcks) (now₀ : ℤ) (as : List CheckpointAct)
    (hinc : (Trace.run (step st) (init now₀) as).registered.Pairwise (· < ·)) :
    let s := Trace.run (step st) (init now₀) as
    (s.cp.acksSinceSave = lag s.registered s.cp) ∧
    (∀ now stored, (s.cp.tryMaybeSave st now stored).2 = false → (s.cp.tryMaybeSave st now stored).1 = s.cp) ∧
    (∀ now stored, (s.cp.tryMaybeSave st now stored).2 = true →
      let s' := s.step st (.maybeSave now stored)
      (s'.cp.savedCursor = s'.cp.safeCursor ∨
        ((lag s'.registered s'.cp : ℤ) < st.cursorCheckpointAcks ∧
          now - s'.lastSave < st.cursorCheckpointSeconds)) ∧
      (lag s'.registered s'.cp : ℤ) < st.cursorCheckpointAcks) ∧
    (s.cp.tryFinalSave true).2 = true ∧
    ∀ stored, (s.cp.tryFinalSave stored).2 = true →
      (s.cp.tryFinalSave stored).1.savedCursor = (s.cp.tryFinalSave stored).1.safeCursor ∧
        lag s.registered (s.cp.tryFinalSave stored).1 = 0 := by
  intro s
  have h : s.Accounted := accounted_run st now₀ as hinc
  refine ⟨h.count, ?_, ?_, ?_, ?_⟩
  · intro now stored hraised
    unfold tryMaybeSave at hraised ⊢
    cases hd : s.cp.due st now <;> cases stored <;> simp_all
  · intro now stored hret s'
    have h' : s'.Accounted := h.maybeSave stored
    have hsaved := h.maybeSave_returns hret
    have hcount : s'.cp.acksSinceSave = lag s'.registered s'.cp := h'.count
    rw [← hcount]
    refine ⟨hsaved, ?_⟩
    rcases hsaved with heq | hlt
    · have hzero : lag s'.registered s'.cp = 0 := lag_saved _ heq
      omega
    · exact hlt.1
  · unfold tryFinalSave
    split
    · rfl
    · rfl
  · intro stored hret
    have hsaved := h.finalSave_returns hret
    exact ⟨hsaved, lag_saved _ hsaved⟩

/-- Two acks are serviced before a save, one report fails, and the next save raises; then the stop is graceful. -/
theorem lag_exact_gap :
    let as : List CheckpointAct := [.ack (.register 10), .ack (.register 20), .ack (.register 30),
      .ack (.onAck true 20), .ack (.onAck true 10), .ack (.onAck false 30), .maybeSave 15 false]
    let s := Trace.run (step ⟨2, 15⟩) (init 0) as
    s.cp.acksSinceSave = lag s.registered s.cp ∧ lag s.registered s.cp = 2 ∧
      (s.step ⟨2, 15⟩ (.maybeSave 16 true)).cp.savedCursor = some 20 ∧
      (s.cp.tryFinalSave true).2 = true ∧ (s.cp.tryFinalSave true).1.savedCursor = some 20 ∧
      lag s.registered (s.cp.tryFinalSave true).1 = 0 := by
  intro as s
  obtain ⟨hcount, -, -, hreturns, hfinal⟩ := lag_exact ⟨2, 15⟩ (by decide) 0 as (by decide)
  exact ⟨hcount, by decide, by decide, hreturns, by decide, (hfinal true hreturns).2⟩

end BlueskyTrends
