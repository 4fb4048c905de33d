import Mathlib.Tactic

/-!
# Blocks of a list and the values in them

A list is cut into blocks of `n`. How many values a block holds is a matter of which elements share it: those whose
positions have one quotient by `n`.

* `block_eq_filter`: a block is the elements of one quotient.
* `length_dedup_le_iff`: the values of a list number as many as the most of its elements that differ in pairs.
* `forall_block_iff`: **no block holds more than `m` values exactly when no more than `m` elements of one quotient
  differ in pairs.**
-/

namespace Blocks

variable {α β : Type*} {l : List α} {n m q : ℕ}

/-- The `q`-th block of `n`. -/
def block (l : List α) (n q : ℕ) : List α := (l.drop (q * n)).take n

theorem filter_none {k : ℕ} (h : ∀ i, k ≤ i → i < k + l.length → i / n ≠ q) :
    (l.zipIdx k).filter (fun x => x.2 / n = q) = [] := by
  refine List.filter_eq_nil_iff.2 fun x hx hq => ?_
  obtain ⟨hle, hlt, -⟩ := List.mem_zipIdx hx
  exact h x.2 hle hlt (by simpa using hq)

theorem filter_all {k : ℕ} (h : ∀ i, k ≤ i → i < k + l.length → i / n = q) :
    (l.zipIdx k).filter (fun x => x.2 / n = q) = l.zipIdx k := by
  refine List.filter_eq_self.2 fun x hx => ?_
  obtain ⟨hle, hlt, -⟩ := List.mem_zipIdx hx
  simpa using h x.2 hle hlt

/-- **A block is the elements of one quotient.** -/
theorem block_eq_filter (hn : 0 < n) (l : List α) (q : ℕ) :
    block l n q = (l.zipIdx.filter fun x => x.2 / n = q).map Prod.fst := by
  generalize ha : l.take (q * n) = a
  generalize hc : (l.drop (q * n)).drop n = c
  have hl : l = a ++ (block l n q ++ c) := by
    rw [← ha, ← hc, block, List.take_append_drop, List.take_append_drop]
  have hla : a.length = min (q * n) l.length := by rw [← ha, List.length_take]
  have hlb : (block l n q).length = min n (l.length - q * n) := by
    rw [block, List.length_take, List.length_drop]
  have hlc : c.length = l.length - q * n - n := by rw [← hc, List.length_drop, List.length_drop]
  have hdiv : ∀ i, i / n = q ↔ q * n ≤ i ∧ i < q * n + n := by
    intro i
    rw [Nat.div_eq_iff hn]
    omega
  -- what is before the block has smaller quotients, what is after it greater ones
  have hbefore : (a.zipIdx 0).filter (fun x => x.2 / n = q) = [] := filter_none fun i _ hi hq => by
    have := (hdiv i).1 hq
    omega
  have hblock : ((block l n q).zipIdx (0 + a.length)).filter (fun x => x.2 / n = q) =
      (block l n q).zipIdx (0 + a.length) := filter_all fun i hle hlt => (hdiv i).2 (by omega)
  have hafter : (c.zipIdx (0 + a.length + (block l n q).length)).filter (fun x => x.2 / n = q) = [] :=
    filter_none fun i hle hlt hq => by
      have := (hdiv i).1 hq
      omega
  conv_rhs => rw [hl]
  rw [List.zipIdx_append, List.zipIdx_append, List.filter_append, List.filter_append, hbefore, hblock, hafter,
    List.nil_append, List.append_nil, List.zipIdx_map_fst]

variable [DecidableEq β] {f : α → β}

/-- **The values of a list number as many as the most of its elements that differ in pairs.** -/
theorem length_dedup_le_iff : (l.map f).dedup.length ≤ m ↔
    ∀ picked : List α, picked.Sublist l → picked.Pairwise (fun x y => f x ≠ f y) → picked.length ≤ m := by
  constructor
  · intro h picked hsub hdiff
    -- elements that differ in pairs have as many values
    have hnodup : (picked.map f).Nodup := List.pairwise_map.2 hdiff
    have hsubset : picked.map f ⊆ (l.map f).dedup := fun y hy => List.mem_dedup.2 ((hsub.map f).subset hy)
    have hle := (hnodup.subperm hsubset).length_le
    rw [List.length_map] at hle
    exact hle.trans h
  · intro h
    -- one element for each value
    obtain ⟨picked, hsub, hpicked⟩ := List.sublist_map_iff.1 (List.dedup_sublist (l.map f))
    have hdiff : picked.Pairwise fun x y => f x ≠ f y := List.pairwise_map.1 (hpicked ▸ List.nodup_dedup _)
    have hlen : (l.map f).dedup.length = picked.length := by rw [hpicked, List.length_map]
    rw [hlen]
    exact h picked hsub hdiff

/-- **No block holds more than `m` values exactly when no more than `m` elements of one quotient differ in pairs.** -/
theorem forall_block_iff (hn : 0 < n) : (∀ q, ((block l n q).map f).dedup.length ≤ m) ↔
    ∀ picked : List (α × ℕ), picked.Sublist l.zipIdx →
      picked.Pairwise (fun x y => x.2 / n = y.2 / n ∧ f x.1 ≠ f y.1) → picked.length ≤ m := by
  constructor
  · intro h picked hsub hpair
    cases hp : picked with
    | nil => exact Nat.zero_le m
    | cons x xs =>
      -- all of them are in the block of the first
      have hq : ∀ y ∈ picked, y.2 / n = x.2 / n := by
        intro y hy
        rw [hp] at hy hpair
        rcases List.mem_cons.1 hy with rfl | hy
        · rfl
        · exact ((List.pairwise_cons.1 hpair).1 y hy).1.symm
      have hfilter := hsub.filter fun y => y.2 / n = x.2 / n
      rw [List.filter_eq_self.2 fun y hy => by simpa using hq y hy] at hfilter
      have hblock : (picked.map Prod.fst).Sublist (block l n (x.2 / n)) := by
        rw [block_eq_filter hn]
        exact hfilter.map Prod.fst
      have hdiff : (picked.map Prod.fst).Pairwise fun a b => f a ≠ f b :=
        List.pairwise_map.2 (hpair.imp And.right)
      have hle := length_dedup_le_iff.1 (h (x.2 / n)) _ hblock hdiff
      rw [List.length_map, hp] at hle
      exact hle
  · intro h q
    refine length_dedup_le_iff.2 fun sub hsub hdiff => ?_
    rw [block_eq_filter hn] at hsub
    obtain ⟨picked, hpicked, rfl⟩ := List.sublist_map_iff.1 hsub
    have hq : ∀ y ∈ picked, y.2 / n = q := fun y hy => by simpa using (List.mem_filter.1 (hpicked.subset hy)).2
    rw [List.length_map]
    refine h picked (hpicked.trans List.filter_sublist) ?_
    refine (List.pairwise_map.1 hdiff).imp_of_mem fun hx hy hne => ⟨?_, hne⟩
    rw [hq _ hx, hq _ hy]

/-- Small blocks hold few values. -/
theorem block_of_small (h : n ≤ m) (q : ℕ) : ((block l n q).map f).dedup.length ≤ m := by
  have hdedup := (List.dedup_sublist ((block l n q).map f)).length_le
  rw [List.length_map] at hdedup
  have htake : (block l n q).length ≤ n := List.length_take_le _ _
  exact hdedup.trans (htake.trans h)

end Blocks
