import BlueskyTrends.Ingest.Checkpointer

/-!
# The watermark, exactly

`watermark_exact`: under strictly increasing registrations, after any interleaving of
registrations with successful, failed, repeated and unknown acks, the watermark is the
greatest registered cursor up to which every registered cursor has been acked, and the
pending map holds exactly the registered cursors above it with their ack state.
-/

namespace BlueskyTrends

open Frontier

/-- A call of `register` or `on_ack`. -/
inductive AckCall where
  | register (cursor : ℤ)
  | onAck (success : Bool) (cursor : ℤ)

def Checkpointer.call (s : Checkpointer) : AckCall → Checkpointer
  | .register c => s.register c
  | .onAck ok c => s.onAck ok c

namespace AckCall

def registered? : AckCall → Option ℤ
  | .register c => some c
  | .onAck _ _ => none

/-- The registered cursors, in order. -/
def registered (calls : List AckCall) : List ℤ := calls.filterMap registered?

/-- The cursor has had a successful `on_ack` after its registration. -/
def Acked (calls : List AckCall) (c : ℤ) : Prop :=
  ∃ pre post, calls = pre ++ .onAck true c :: post ∧ .register c ∈ pre

/-- The part of the registered cursors up to which all are acked. -/
def settled (calls : List AckCall) : Set ℤ :=
  Covered {c | c ∈ registered calls} {c | Acked calls c}

variable {calls calls' : List AckCall} {c d : ℤ}

theorem mem_settled : c ∈ settled calls ↔
    c ∈ registered calls ∧ ∀ d ∈ registered calls, d ≤ c → Acked calls d := Iff.rfl

theorem settled_congr (hr : ∀ c, c ∈ registered calls' ↔ c ∈ registered calls)
    (ha : ∀ c, Acked calls' c ↔ Acked calls c) : settled calls' = settled calls := by
  ext c
  simp only [mem_settled, hr, ha]

theorem mem_registered : c ∈ registered calls ↔ .register c ∈ calls := by
  simp only [registered, List.mem_filterMap]
  constructor
  · rintro ⟨a, ha, hc⟩
    cases a with
    | register d => cases hc; exact ha
    | onAck ok d => cases hc
  · exact fun h => ⟨_, h, rfl⟩

theorem registered_snoc (a : AckCall) :
    registered (calls ++ [a]) = registered calls ++ a.registered?.toList := by
  simp only [registered, List.filterMap_append, List.filterMap_cons, List.filterMap_nil]
  cases a.registered? <;> rfl

/-- An acked cursor is a registered one. -/
theorem Acked.registered (h : Acked calls c) : c ∈ registered calls := by
  obtain ⟨pre, post, rfl, hr⟩ := h
  exact mem_registered.2 (List.mem_append_left _ hr)

theorem acked_snoc (a : AckCall) :
    Acked (calls ++ [a]) c ↔ Acked calls c ∨ (a = .onAck true c ∧ c ∈ registered calls) := by
  constructor
  · rintro ⟨pre, post, heq, hr⟩
    rcases List.eq_nil_or_concat post with rfl | ⟨post, b, rfl⟩
    · obtain ⟨rfl, hb⟩ := List.append_inj' heq rfl
      exact Or.inr ⟨by simpa using hb, mem_registered.2 hr⟩
    · have heq : calls ++ [a] = (pre ++ .onAck true c :: post) ++ [b] := by simpa using heq
      exact Or.inl ⟨pre, post, (List.append_inj' heq rfl).1, hr⟩
  · rintro (⟨pre, post, rfl, hr⟩ | ⟨rfl, hr⟩)
    · exact ⟨pre, post ++ [a], by simp, hr⟩
    · exact ⟨calls, [], rfl, mem_registered.1 hr⟩

end AckCall

open AckCall

/-- The state after `calls`: the mark of the settled cursors, and the rest pending. -/
structure Exact (calls : List AckCall) (s : Checkpointer) : Prop where
  safe : IsMark (settled calls) s.safeCursor
  lookup : ∀ c b, s.pendingAcks.lookup c = some b ↔
    c ∈ registered calls ∧ c ∉ settled calls ∧ (b = true ↔ Acked calls c)

namespace Exact

variable {calls : List AckCall} {s : Checkpointer} {c d : ℤ}

theorem mem (h : Exact calls s) : c ∈ s.pendingAcks ↔ c ∈ registered calls ∧ c ∉ settled calls := by
  rw [Checkpointer.mem_pendingAcks]
  constructor
  · rintro ⟨b, hb⟩
    exact ⟨((h.lookup c b).1 hb).1, ((h.lookup c b).1 hb).2.1⟩
  · rintro ⟨hr, hn⟩
    by_cases ha : Acked calls c
    · exact ⟨true, (h.lookup c true).2 ⟨hr, hn, by simp [ha]⟩⟩
    · exact ⟨false, (h.lookup c false).2 ⟨hr, hn, by simp [ha]⟩⟩

theorem init (now : ℤ) : Exact [] (.init now) where
  safe := by
    refine Set.eq_empty_iff_forall_notMem.2 fun c hc => ?_
    simpa [registered] using Covered.mem hc
  lookup := by simp [Checkpointer.init, registered]

/-- **A registration above all others** leaves the settled part as it is. -/
theorem register (h : Exact calls s) (hc : ∀ d ∈ registered calls, d < c) :
    Exact (calls ++ [.register c]) (s.register c) := by
  have hcr : c ∉ registered calls := fun hr => lt_irrefl c (hc c hr)
  have hreg : ∀ d, d ∈ registered (calls ++ [.register c]) ↔ d = c ∨ d ∈ registered calls := by
    intro d; simp [registered_snoc, registered?, or_comm]
  have hack : ∀ d, Acked (calls ++ [.register c]) d ↔ Acked calls d := by
    intro d; simp [acked_snoc]
  have hset : settled (calls ++ [.register c]) = settled calls := by
    -- the new cursor is above all others and not acked: it covers nothing
    have hR : {d | d ∈ registered (calls ++ [.register c])} = insert c {d | d ∈ registered calls} :=
      Set.ext hreg
    have hA : {d | Acked (calls ++ [.register c]) d} = {d | Acked calls d} := Set.ext hack
    have hc' : ∀ d ∈ {d | d ∈ registered calls}, d < c := hc
    have hna : c ∉ {d | Acked calls d} := fun ha => hcr (Acked.registered ha)
    rw [settled, settled, hR, hA, covered_insert hc' hna]
  have hcp : c ∉ s.pendingAcks := fun hp => hcr (h.mem.1 hp).1
  refine ⟨by rw [hset, Checkpointer.register_safe]; exact h.safe, fun d b => ?_⟩
  rw [Checkpointer.register_lookup, hset, hreg, hack]
  by_cases hd : d = c
  · subst hd
    have hns : d ∉ settled calls := fun hs => hcr (mem_settled.1 hs).1
    have hna : ¬ Acked calls d := fun ha => hcr ha.registered
    cases b <;> simp [hcp, hns, hna]
  · rw [if_neg fun hh => hd hh.1, h.lookup d b]; simp [hd]

/-- A failed ack changes nothing. -/
theorem onAck_false (h : Exact calls s) : Exact (calls ++ [.onAck false c]) (s.onAck false c) := by
  have hreg : registered (calls ++ [.onAck false c]) = registered calls := by
    simp [registered_snoc, registered?]
  have hack : ∀ d, Acked (calls ++ [.onAck false c]) d ↔ Acked calls d := by
    intro d; simp [acked_snoc]
  have hset : settled (calls ++ [.onAck false c]) = settled calls :=
    settled_congr (fun d => by rw [hreg]) hack
  refine ⟨by rw [hset]; exact h.safe, fun d b => ?_⟩
  rw [hset, hreg, hack]
  exact h.lookup d b

/-- **A successful ack** settles what is covered of the pending cursors. -/
theorem onAck_true (h : Exact calls s) : Exact (calls ++ [.onAck true c]) (s.onAck true c) := by
  set R : Set ℤ := {d | d ∈ registered calls}
  set A : Set ℤ := {d | Acked calls d}
  set B : Set ℤ := {d | Acked (calls ++ [.onAck true c]) d}
  have hreg : registered (calls ++ [.onAck true c]) = registered calls := by
    simp [registered_snoc, registered?]
  have hB : ∀ d, d ∈ B ↔ Acked calls d ∨ (d = c ∧ d ∈ registered calls) := by
    intro d
    simp only [B, Set.mem_ofPred_eq, acked_snoc, AckCall.onAck.injEq, true_and]
    rw [eq_comm]
  have hAB : A ⊆ B := fun d hd => (hB d).2 (Or.inl hd)
  have hset : settled (calls ++ [.onAck true c]) = Covered R B := by rw [settled, hreg]
  -- what the fold takes is the part of the old pending cursors covered by the new acks
  have hfold : (s.mark c).foldable = Covered (R \ Covered R A) B := by
    have hp : (s.mark c).pending = R \ Covered R A := by
      rw [Checkpointer.pending_mark]; ext d; exact h.mem
    rw [Checkpointer.foldable, hp]
    refine covered_congr fun d hd => ?_
    have hlook := h.lookup d true
    have hmem := (h.mem (c := d)).2 hd
    rw [Checkpointer.mem_marked_mark, hB]
    constructor
    · rintro (⟨rfl, -⟩ | hm)
      · exact Or.inr ⟨rfl, hd.1⟩
      · exact Or.inl ((hlook.1 hm).2.2.1 rfl)
    · rintro (ha | ⟨rfl, -⟩)
      · exact Or.inr (hlook.2 ⟨hd.1, hd.2, by simp [ha]⟩)
      · exact Or.inl ⟨rfl, hmem⟩
  have hsplit : ∀ d, d ∈ Covered R B ↔ d ∈ Covered R A ∨ d ∈ (s.mark c).foldable := by
    intro d; rw [covered_grow hAB, hfold]; rfl
  have hgrow := IsMark.grow h.safe hAB
  constructor
  · rw [hset]
    rcases (s.mark c).advanceWatermark_safe with ⟨he, hs⟩ | ⟨v, hv, hs⟩
    · rw [Checkpointer.onAck, if_pos rfl, hs, Checkpointer.mark_safe]
      exact hgrow.1 (hfold ▸ he)
    · rw [Checkpointer.onAck, if_pos rfl, hs]
      exact hgrow.2 v (hfold ▸ hv)
  · intro d b
    rw [hset, hreg, Checkpointer.onAck, if_pos rfl, Checkpointer.advanceWatermark_lookup]
    change _ ↔ d ∈ registered calls ∧ d ∉ Covered R B ∧ (b = true ↔ d ∈ B)
    -- a cursor is folded now, marked now, or as it was
    by_cases hf : d ∈ (s.mark c).foldable
    · simp [hf, hsplit]
    rw [if_neg hf, Checkpointer.mark_lookup, hsplit, hB]
    by_cases hd : d = c ∧ c ∈ s.pendingAcks
    · obtain ⟨rfl, hp⟩ := hd
      have hm := h.mem.1 hp
      simp only [hp, and_self, if_true, Option.some.injEq, hm.1, true_and, hf, or_false]
      have hns : d ∉ Covered R A := hm.2
      simp [hns, eq_comm]
    · rw [if_neg hd, h.lookup d b]
      refine and_congr_right fun hr => ?_
      have hdc : d ∉ settled calls → ¬ (d = c ∧ d ∈ registered calls) :=
        fun hn hh => hd ⟨hh.1, hh.1 ▸ h.mem.2 ⟨hr, hn⟩⟩
      simp only [hf, or_false]
      exact and_congr_right fun hn => by rw [or_iff_left (hdc hn)]

/-- **Every run of calls with increasing registrations** ends in the exact state. -/
theorem of_calls (now : ℤ) : ∀ calls : List AckCall, (registered calls).Pairwise (· < ·) →
    Exact calls (calls.foldl Checkpointer.call (.init now)) := by
  intro calls
  -- on the last call: the invariant speaks of all calls so far
  induction calls using List.reverseRecOn with
  | nil => exact fun _ => Exact.init now
  | append_singleton calls a ih =>
    intro hinc
    rw [registered_snoc, List.pairwise_append] at hinc
    rw [List.foldl_append]
    have h := ih hinc.1
    cases a with
    | register c => exact h.register fun d hd => hinc.2.2 d hd c (by simp [registered?])
    | onAck ok c =>
      cases ok with
      | true => exact h.onAck_true
      | false => exact h.onAck_false

end Exact

/-- **The watermark is exact.** After any sequence of registrations, in increasing order,
and acks, `_safe_cursor` is the greatest registered cursor up to which every registered
cursor is acked, `_pending_acks` holds the registered cursors above it with their ack
state, and both depend only on which cursors are registered and which acked. -/
theorem watermark_exact (now : ℤ) (calls : List AckCall) (hinc : (registered calls).Pairwise (· < ·)) :
    let s := calls.foldl Checkpointer.call (.init now)
    IsMark {c | c ∈ registered calls ∧ ∀ d ∈ registered calls, d ≤ c → Acked calls d} s.safeCursor ∧
    (∀ c b, s.pendingAcks.lookup c = some b ↔ c ∈ registered calls ∧
      (∀ v, s.safeCursor = some v → v < c) ∧ (b = true ↔ Acked calls c)) ∧
    ∀ (now' : ℤ) (calls' : List AckCall), (registered calls').Pairwise (· < ·) →
      (∀ c, c ∈ registered calls' ↔ c ∈ registered calls) → (∀ c, Acked calls' c ↔ Acked calls c) →
      let s' := calls'.foldl Checkpointer.call (.init now')
      s'.safeCursor = s.safeCursor ∧ ∀ c, s'.pendingAcks.lookup c = s.pendingAcks.lookup c := by
  intro s
  have h : Exact calls s := Exact.of_calls now calls hinc
  refine ⟨h.safe, fun c b => ?_, ?_⟩
  · rw [h.lookup]
    exact and_congr_right fun hr => and_congr_left' (IsMark.lt_iff h.safe hr)
  · intro now' calls' hinc' hr ha s'
    have h' : Exact calls' s' := Exact.of_calls now' calls' hinc'
    have hset : settled calls' = settled calls := settled_congr hr ha
    refine ⟨IsMark.unique h'.safe (hset ▸ h.safe), fun c => Option.ext fun b => ?_⟩
    rw [h'.lookup, h.lookup, hset, hr, ha]

/-- Acks out of order, repeated, failed, and of a cursor never registered. -/
theorem watermark_exact_gap :
    let calls : List AckCall := [.register 10, .register 20, .register 30, .onAck true 30,
      .onAck false 20, .onAck true 10, .onAck true 10, .onAck true 7]
    let s := calls.foldl Checkpointer.call (.init 0)
    IsMark {c | c ∈ registered calls ∧ ∀ d ∈ registered calls, d ≤ c → Acked calls d} s.safeCursor ∧
      s.safeCursor = some 10 ∧ s.pendingAcks.keys = [30, 20] :=
  ⟨(watermark_exact 0 [.register 10, .register 20, .register 30, .onAck true 30, .onAck false 20,
    .onAck true 10, .onAck true 10, .onAck true 7] (by decide)).1, by decide, by decide⟩

end BlueskyTrends
