import Mathlib.Order.Bounds.Basic
import Mathlib.Data.List.MinMax
import Mathlib.Tactic

/-!
# Copying by a high-water mark

A source is copied into a destination by fetching what lies above the greatest key copied so far.
`newer key src dst` is what such a copy fetches; `Gapless key src dst` says that nothing of `src` is
missing from `dst` at or below a key of `dst`.

* `complete_iff_gapless`: the copy leaves nothing out exactly when there is no gap.
* `gapless_union_iff`: which growth of the source keeps it gapless.
* `Gapless.of_union`: what a copy broken off in the middle leaves gapless.
* `append_fetched_subperm`: for lists, a copy of what is above copies nothing twice.
* `max_lt_iff`: for lists, comparing with the maximum is comparing with every element.
* `le_greatest_append`: after a copy, nothing more is above the maximum.
-/

namespace HighWater

variable {α β : Type*} [LinearOrder β]

/-- `x` has a key above all of `dst`. -/
def Above (key : α → β) (dst : Set α) (x : α) : Prop := ∀ y ∈ dst, key y < key x

/-- What an incremental copy fetches. -/
def newer (key : α → β) (src dst : Set α) : Set α := {x ∈ src | Above key dst x}

/-- What is missing from the destination is above it. -/
def Gapless (key : α → β) (src dst : Set α) : Prop := ∀ x ∈ src, x ∈ dst ∨ Above key dst x

variable {key : α → β} {src src' dst pending : Set α}

theorem Above.mono {x : α} (h : dst ⊆ pending) (hx : Above key pending x) : Above key dst x := by
  intro y hy
  exact hx y (h hy)

/-- **A copy is complete exactly when the destination has no gap.** -/
theorem complete_iff_gapless : src ⊆ dst ∪ newer key src dst ↔ Gapless key src dst := by
  constructor
  · intro h x hx
    rcases h hx with hd | hn
    · exact Or.inl hd
    · exact Or.inr hn.2
  · intro h x hx
    rcases h x hx with hd | habove
    · exact Or.inl hd
    · exact Or.inr ⟨hx, habove⟩

theorem gapless_of_subset (h : src ⊆ dst) : Gapless key src dst := fun _ hx => Or.inl (h hx)

/-- A source grows without a gap by what is copied or above the destination. -/
theorem gapless_union_iff :
    Gapless key (src ∪ src') dst ↔ Gapless key src dst ∧ Gapless key src' dst := by
  simp only [Gapless, Set.mem_union, or_imp, forall_and]

/-- **A copy broken off** leaves no gap if what it left pending is above what it copied. -/
theorem Gapless.of_union (h : Gapless key src (dst ∪ pending)) (hp : Gapless key pending dst) :
    Gapless key src dst := by
  intro x hx
  rcases h x hx with (hd | hx') | habove
  · exact Or.inl hd
  · exact hp x hx'
  · exact Or.inr (habove.mono Set.subset_union_left)

theorem Gapless.subset (h : Gapless key src dst) (hsub : src' ⊆ src) : Gapless key src' dst :=
  fun x hx => h x (hsub hx)

/-- **A copy fetches nothing twice**: what is above the destination is not in it. -/
theorem append_fetched_subperm [DecidableEq α] {src dst fetched : List α} (hdst : dst.Subperm src)
    (hfetched : fetched.Subperm src) (habove : ∀ x ∈ fetched, Above key {y | y ∈ dst} x) :
    (dst ++ fetched).Subperm src := by
  refine List.subperm_ext_iff.2 fun x _ => ?_
  rw [List.count_append]
  by_cases hx : x ∈ dst
  · have hnot : x ∉ fetched := by
      intro hf
      exact lt_irrefl _ (habove x hf x hx)
    have hle := hdst.count_le x
    rw [List.count_eq_zero_of_not_mem hnot]
    omega
  · have hle := hfetched.count_le x
    rw [List.count_eq_zero_of_not_mem hx]
    omega

/-- Comparing with the maximum is comparing with every element. -/
theorem max_lt_iff {l : List β} {b : β} {m : β} (hm : l.max? = some m) : m < b ↔ ∀ y ∈ l, y < b := by
  obtain ⟨hmem, hle⟩ := List.max?_eq_some_iff.1 hm
  constructor
  · intro h y hy
    exact (hle y hy).trans_lt h
  · intro h
    exact h m hmem

/-! ## A maximum with a default -/

/-- The greatest key of a list, `d` where there is none. -/
def greatest (d : β) (l : List β) : β := l.max?.getD d

theorem le_greatest {d b : β} {l : List β} (h : b ∈ l) : b ≤ greatest d l := by
  unfold greatest
  cases hm : l.max? with
  | none =>
    rw [List.max?_eq_none_iff.1 hm] at h
    cases h
  | some m => exact (List.max?_eq_some_iff.1 hm).2 b h

theorem greatest_mem {d : β} {l : List β} (h : l ≠ []) : greatest d l ∈ l := by
  unfold greatest
  cases hm : l.max? with
  | none => exact absurd (List.max?_eq_none_iff.1 hm) h
  | some m => exact (List.max?_eq_some_iff.1 hm).1

theorem greatest_le_of_forall {d : β} {l l' : List β} (h : ∀ b ∈ l, ∃ c ∈ l', b ≤ c) (hl : l = [] → l' = []) :
    greatest d l ≤ greatest d l' := by
  by_cases hnil : l = []
  · rw [hnil, hl hnil]
  · obtain ⟨c, hc, hle⟩ := h _ (greatest_mem hnil)
    exact hle.trans (le_greatest hc)

/-- What is not above the greatest key of a list, after all that was above it is appended. -/
theorem le_greatest_append {d b : β} {l l' : List β} (habove : ∀ c ∈ l', greatest d l < c)
    (h : greatest d l < b → b ∈ l') : b ≤ greatest d (l ++ l') := by
  by_cases hb : greatest d l < b
  · exact le_greatest (List.mem_append_right l (h hb))
  · refine (not_lt.1 hb).trans ?_
    by_cases hl : l = []
    · -- nothing appended lies below the default
      subst hl
      by_cases hl' : l' = []
      · subst hl'
        exact le_rfl
      · rw [List.nil_append]
        exact (habove _ (greatest_mem hl')).le
    · exact le_greatest (List.mem_append_left l' (greatest_mem hl))

theorem setOf_append (l l' : List α) : {x | x ∈ l ++ l'} = {x | x ∈ l} ∪ {x | x ∈ l'} :=
  Set.ext fun _ => List.mem_append

end HighWater
