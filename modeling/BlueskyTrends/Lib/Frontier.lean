import Mathlib.Data.List.Sort
import Mathlib.Order.Bounds.Basic
import Mathlib.Tactic

/-!
# Contiguous prefixes

In a linear order, `Covered R A` is the part of `R` below which nothing of `R` is
missing from `A`; its greatest element is the mark up to which `R` is settled when
`A` is what is settled so far.

* `covered_insert`: a new element above all of `R` and not in `A` changes nothing.
* `covered_grow`: when `A` grows, what was covered stays, and the rest is covered as
  if it had been taken out first.
* `IsMark`: the greatest covered element, if any; it is unique (`IsMark.unique`), splits
  `R` (`IsMark.lt_iff`) and moves as `A` grows (`IsMark.grow`).
* `mem_takeWhile_sorted`, `getLast_takeWhile`: on a sorted list the covered part is a
  leading run, and its last element the greatest.
-/

namespace Frontier

variable {α : Type*} [LinearOrder α]

/-- The elements of `R` up to which all of `R` is in `A`. -/
def Covered (R A : Set α) : Set α := {c | c ∈ R ∧ ∀ d ∈ R, d ≤ c → d ∈ A}

variable {R A B : Set α} {c d : α}

theorem Covered.mem (h : c ∈ Covered R A) : c ∈ R := h.1

theorem Covered.settled (h : c ∈ Covered R A) : c ∈ A := h.2 c h.1 le_rfl

/-- The covered part is downward closed in `R`. -/
theorem Covered.down (h : c ∈ Covered R A) (hd : d ∈ R) (hdc : d ≤ c) : d ∈ Covered R A :=
  ⟨hd, fun e he hed => h.2 e he (hed.trans hdc)⟩

theorem covered_mono (h : A ⊆ B) : Covered R A ⊆ Covered R B := by
  intro c hc
  refine ⟨hc.1, fun d hd hdc => ?_⟩
  exact h (hc.2 d hd hdc)

/-- **A new element above `R`, not settled, covers nothing and uncovers nothing.** -/
theorem covered_insert (hc : ∀ d ∈ R, d < c) (hA : c ∉ A) : Covered (insert c R) A = Covered R A := by
  ext x
  constructor
  · rintro ⟨hx, hall⟩
    rcases hx with rfl | hx
    · exact absurd (hall x (Set.mem_insert _ _) le_rfl) hA
    · exact ⟨hx, fun d hd => hall d (Set.mem_insert_of_mem _ hd)⟩
  · rintro ⟨hx, hall⟩
    refine ⟨Set.mem_insert_of_mem _ hx, fun d hd hdx => ?_⟩
    rcases hd with rfl | hd
    · exact absurd (hc x hx) (not_lt.2 hdx)
    · exact hall d hd hdx

/-- **Settling more.** What was covered stays covered; the rest is covered exactly when it
is covered among the elements not covered before. -/
theorem covered_grow (h : A ⊆ B) :
    Covered R B = Covered R A ∪ Covered (R \ Covered R A) B := by
  ext x
  constructor
  · intro hx
    by_cases hxA : x ∈ Covered R A
    · exact Or.inl hxA
    · exact Or.inr ⟨⟨hx.1, hxA⟩, fun d hd hdx => hx.2 d hd.1 hdx⟩
  · rintro (hx | hx)
    · exact covered_mono h hx
    · refine ⟨hx.1.1, fun d hd hdx => ?_⟩
      by_cases hdA : d ∈ Covered R A
      · exact h (Covered.settled hdA)
      · exact hx.2 d ⟨hd, hdA⟩ hdx

/-- Only what of `R` is settled matters. -/
theorem covered_congr (h : ∀ d ∈ R, d ∈ A ↔ d ∈ B) : Covered R A = Covered R B := by
  ext x
  constructor
  · intro hx
    exact ⟨hx.1, fun d hd hdx => (h d hd).1 (hx.2 d hd hdx)⟩
  · intro hx
    exact ⟨hx.1, fun d hd hdx => (h d hd).2 (hx.2 d hd hdx)⟩

/-! ## The mark -/

/-- `m` is the greatest element of `S`, or `none` when `S` is empty. -/
def IsMark (S : Set α) : Option α → Prop
  | some v => IsGreatest S v
  | none => S = ∅

theorem IsMark.unique {S : Set α} {m m' : Option α} (h : IsMark S m) (h' : IsMark S m') : m = m' := by
  match m, m', h, h' with
  | none, none, _, _ => rfl
  | some v, some w, h, h' => exact congrArg some (IsGreatest.unique h h')
  | some v, none, h, h' =>
    have : v ∈ S := h.1
    rw [show S = ∅ from h'] at this; exact this.elim
  | none, some w, h, h' =>
    have : w ∈ S := h'.1
    rw [show S = ∅ from h] at this; exact this.elim

/-- What of `R` is not covered lies above the mark, and nothing else of `R` does. -/
theorem IsMark.lt_iff {m : Option α} (h : IsMark (Covered R A) m) (hc : c ∈ R) :
    c ∉ Covered R A ↔ ∀ v, m = some v → v < c := by
  match m, h with
  | none, h => simp [show Covered R A = ∅ from h]
  | some v, h =>
    simp only [Option.some.injEq, forall_eq']
    constructor
    · intro hcn
      by_contra hvc
      exact hcn (Covered.down h.1 hc (not_lt.1 hvc))
    · intro hvc hcc
      have hcv : c ≤ v := h.2 hcc
      exact absurd hvc (not_lt.2 hcv)

/-- **The mark after settling more**: that of the newly covered rest, if there is one. -/
theorem IsMark.grow {m : Option α} (h : IsMark (Covered R A) m) (hAB : A ⊆ B) :
    (Covered (R \ Covered R A) B = ∅ → IsMark (Covered R B) m) ∧
      ∀ v, IsGreatest (Covered (R \ Covered R A) B) v → IsMark (Covered R B) (some v) := by
  rw [covered_grow (R := R) hAB]
  constructor
  · intro he
    rw [he, Set.union_empty]; exact h
  · intro v hv
    refine ⟨Or.inr hv.1, fun x hx => ?_⟩
    rcases hx with hx | hx
    · -- nothing newly covered lies below what was covered
      by_contra hxv
      exact hv.1.1.2 (Covered.down hx hv.1.1.1 (not_le.1 hxv).le)
    · exact hv.2 hx

/-! ## Sorted lists -/

theorem takeWhile_congr {β : Type*} {p q : β → Bool} {l : List β} (h : ∀ x ∈ l, p x = q x) :
    l.takeWhile p = l.takeWhile q := by
  induction l with
  | nil => rfl
  | cons a l ih =>
    simp only [List.takeWhile_cons, h a List.mem_cons_self,
      ih fun x hx => h x (List.mem_cons_of_mem _ hx)]

/-- On a sorted list the leading run of `p` is the part covered by `p`. -/
theorem mem_takeWhile_sorted {l : List α} {p : α → Bool} (hl : l.Pairwise (· < ·)) :
    c ∈ l.takeWhile p ↔ c ∈ Covered {x | x ∈ l} {x | p x} := by
  induction l with
  | nil => simp [Covered]
  | cons a l ih =>
    obtain ⟨ha, hl⟩ := List.pairwise_cons.1 hl
    simp only [Covered, Set.mem_ofPred_eq] at ih ⊢
    by_cases hp : p a
    · rw [List.takeWhile_cons_of_pos hp, List.mem_cons, List.mem_cons, ih hl]
      constructor
      · rintro (rfl | ⟨hc, hall⟩)
        · refine ⟨Or.inl rfl, fun d hd hdc => ?_⟩
          rcases List.mem_cons.1 hd with rfl | hd
          · exact hp
          · exact absurd (ha d hd) (not_lt.2 hdc)
        · refine ⟨Or.inr hc, fun d hd hdc => ?_⟩
          rcases List.mem_cons.1 hd with rfl | hd
          · exact hp
          · exact hall d hd hdc
      · rintro ⟨rfl | hc, hall⟩
        · exact Or.inl rfl
        · exact Or.inr ⟨hc, fun d hd => hall d (List.mem_cons_of_mem _ hd)⟩
    · rw [List.takeWhile_cons_of_neg hp]
      simp only [List.not_mem_nil, false_iff, not_and]
      intro hc hall
      have hac : a ≤ c := by
        rcases List.mem_cons.1 hc with rfl | hc
        · exact le_rfl
        · exact (ha c hc).le
      exact hp (hall a List.mem_cons_self hac)

/-- The last element of the leading run is the greatest covered one. -/
theorem getLast_takeWhile {l : List α} {p : α → Bool} (hl : l.Pairwise (· < ·))
    (h : (l.takeWhile p).getLast? = some c) : IsGreatest (Covered {x | x ∈ l} {x | p x}) c := by
  have hs : (l.takeWhile p).Pairwise (· < ·) := hl.sublist (List.takeWhile_sublist p)
  obtain ⟨pre, hpre⟩ := List.getLast?_eq_some_iff.1 h
  refine ⟨(mem_takeWhile_sorted hl).1 (List.mem_of_getLast? h), fun d hd => ?_⟩
  have hd := (mem_takeWhile_sorted hl).2 hd
  rw [hpre] at hs hd
  rcases List.mem_append.1 hd with hd | hd
  · exact ((List.pairwise_append.1 hs).2.2 d hd c (by simp)).le
  · exact (List.mem_singleton.1 hd).le

end Frontier
