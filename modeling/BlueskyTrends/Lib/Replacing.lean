import Mathlib.Data.List.Dedup
import Mathlib.Tactic

/-!
# A replacing table

A table to which rows are only appended and which is read through a key: of the rows of one key the
reader sees one of greatest version, the last appended on a tie. Superseded rows may be dropped in the
background at any time.

* `latest_append`: what a key reads as after an append.
* `map_key_final`: a read shows every key of the table, once.
* `final_greatest`: it shows no row that another of its key is newer than.
* `latest_collapse`: dropping superseded rows changes no read.
* `map_final_perm`: rows written again are read once.
* `map_perm_of_key`: two tables matched key by key show the same contents.
* `mem_final_append`: without a version, what is appended last is read.
-/

namespace Replacing

variable {α κ β : Type*} [DecidableEq κ] [LinearOrder β] (key : α → κ) (ver : α → β)

/-! ## Reading a key -/

/-- The newer of two rows, the second on a tie. -/
def newer : Option α → Option α → Option α
  | x, none => x
  | none, some y => some y
  | some x, some y => if ver x ≤ ver y then some y else some x

/-- What key `k` reads as. -/
def latest (k : κ) : List α → Option α
  | [] => none
  | x :: xs => newer ver (if key x = k then some x else none) (latest k xs)

/-- The table as it is read. -/
def final (l : List α) : List α := (l.map key).dedup.filterMap fun k => latest key ver k l

variable {key ver} {k : κ} {l l' : List α} {x y : α}

@[simp] theorem newer_none (a : Option α) : newer ver a none = a := by cases a <;> rfl

@[simp] theorem none_newer (a : Option α) : newer ver none a = a := by cases a <;> rfl

theorem newer_some_some : newer ver (some x) (some y) = if ver x ≤ ver y then some y else some x := rfl

theorem newer_assoc (a b c : Option α) : newer ver (newer ver a b) c = newer ver a (newer ver b c) := by
  cases a with
  | none => simp
  | some x =>
    cases b with
    | none => simp
    | some y =>
      cases c with
      | none => simp
      | some z =>
        simp only [newer_some_some]
        by_cases hxy : ver x ≤ ver y
        · by_cases hyz : ver y ≤ ver z
          · have hxz := hxy.trans hyz
            simp [newer_some_some, hxy, hyz, hxz]
          · simp [newer_some_some, hxy, hyz]
        · by_cases hyz : ver y ≤ ver z
          · simp [newer_some_some, hxy, hyz]
          · have hxz : ¬ ver x ≤ ver z := by
              intro h
              exact hxy (h.trans (le_of_lt (not_le.1 hyz)))
            simp [newer_some_some, hxy, hyz, hxz]

/-- A newer row is one of the two. -/
theorem newer_eq_some {a b : Option α} (h : newer ver a b = some x) : a = some x ∨ b = some x := by
  cases a with
  | none => exact Or.inr (by simpa using h)
  | some y =>
    cases b with
    | none => exact Or.inl (by simpa using h)
    | some z =>
      rw [newer_some_some] at h
      split at h
      · exact Or.inr h
      · exact Or.inl h

/-- Neither of the two is newer. -/
theorem newer_greatest {a b : Option α} (h : newer ver a b = some x) (hy : a = some y ∨ b = some y) :
    ver y ≤ ver x := by
  cases a with
  | none =>
    rw [none_newer] at h
    rcases hy with hy | hy
    · cases hy
    · rw [h] at hy; cases hy; exact le_rfl
  | some u =>
    cases b with
    | none =>
      rw [newer_none] at h
      rcases hy with hy | hy
      · rw [h] at hy; cases hy; exact le_rfl
      · cases hy
    | some v =>
      rw [newer_some_some] at h
      split at h <;> cases h <;> rcases hy with hy | hy <;> cases hy
      · assumption
      · exact le_rfl
      · exact le_rfl
      · exact le_of_lt (not_le.1 ‹_›)

@[simp] theorem latest_nil : latest key ver k [] = none := rfl

theorem latest_cons : latest key ver k (x :: l) =
    newer ver (if key x = k then some x else none) (latest key ver k l) := rfl

/-- **What a key reads as after an append.** -/
theorem latest_append :
    latest key ver k (l ++ l') = newer ver (latest key ver k l) (latest key ver k l') := by
  induction l with
  | nil => simp
  | cons x l ih => rw [List.cons_append, latest_cons, latest_cons, ih, newer_assoc]

/-- What a key reads as is a row of that key. -/
theorem latest_mem (h : latest key ver k l = some x) : x ∈ l ∧ key x = k := by
  induction l with
  | nil => cases h
  | cons y l ih =>
    rw [latest_cons] at h
    rcases newer_eq_some h with h | h
    · split at h
      · rename_i hk
        obtain rfl := Option.some.inj h
        exact ⟨List.mem_cons_self, hk⟩
      · cases h
    · obtain ⟨hmem, hk⟩ := ih h
      exact ⟨List.mem_cons_of_mem _ hmem, hk⟩

theorem latest_isSome : (latest key ver k l).isSome ↔ k ∈ l.map key := by
  induction l with
  | nil => simp
  | cons x l ih =>
    rw [latest_cons, List.map_cons, List.mem_cons, ← ih]
    by_cases hk : key x = k
    · rw [if_pos hk]
      cases latest key ver k l with
      | none => simp [hk]
      | some y =>
        rw [newer_some_some]
        split <;> simp [hk]
    · have hne : ¬ k = key x := fun h => hk h.symm
      simp [hk, hne]

theorem exists_latest (ver : α → β) (h : k ∈ l.map key) : ∃ x, latest key ver k l = some x :=
  Option.isSome_iff_exists.1 (latest_isSome.2 h)

/-- No row of a key is newer than what the key reads as. -/
theorem latest_greatest (h : latest key ver k l = some x) : ∀ y ∈ l, key y = k → ver y ≤ ver x := by
  induction l generalizing x with
  | nil => intro y hy; cases hy
  | cons z l ih =>
    intro y hy hk
    rw [latest_cons] at h
    rcases List.mem_cons.1 hy with rfl | hy
    · rw [if_pos hk] at h
      exact newer_greatest h (Or.inl rfl)
    · have hkeys : k ∈ l.map key := List.mem_map.2 ⟨y, hy, hk⟩
      obtain ⟨w, hw⟩ := exists_latest ver hkeys
      exact (ih hw y hy hk).trans (newer_greatest h (Or.inr hw))

/-! ## Reading the table -/

theorem mem_final : x ∈ final key ver l ↔ latest key ver (key x) l = some x := by
  unfold final
  rw [List.mem_filterMap]
  constructor
  · rintro ⟨k, -, hk⟩
    rw [(latest_mem hk).2]
    exact hk
  · intro h
    have hmem := (latest_mem h).1
    exact ⟨key x, List.mem_dedup.2 (List.mem_map.2 ⟨x, hmem, rfl⟩), h⟩

theorem final_subset : final key ver l ⊆ l := by
  intro x hx
  exact (latest_mem (mem_final.1 hx)).1

/-- **A read shows every key of the table, once.** -/
theorem map_key_final : (final key ver l).map key = (l.map key).dedup := by
  have hkey : ∀ k ∈ (l.map key).dedup, (latest key ver k l).map key = some k := by
    intro k hk
    obtain ⟨x, hx⟩ := exists_latest ver (List.mem_dedup.1 hk)
    rw [hx, Option.map_some, (latest_mem hx).2]
  unfold final
  rw [List.map_filterMap]
  generalize (l.map key).dedup = ks at hkey
  induction ks with
  | nil => rfl
  | cons k ks ih =>
    rw [List.filterMap_cons, hkey k List.mem_cons_self]
    simp only
    rw [ih fun k' hk' => hkey k' (List.mem_cons_of_mem _ hk')]

theorem nodup_final : ((final key ver l).map key).Nodup := by
  rw [map_key_final]
  exact List.nodup_dedup _

theorem mem_map_final : k ∈ (final key ver l).map key ↔ k ∈ l.map key := by
  rw [map_key_final, List.mem_dedup]

/-- **A read shows no row that another of its key is newer than.** -/
theorem final_greatest (hx : x ∈ final key ver l) (hy : y ∈ l) (hk : key y = key x) : ver y ≤ ver x :=
  latest_greatest (mem_final.1 hx) y hy hk

/-- Tables that read the same key by key read the same. -/
theorem final_perm (h : ∀ k, latest key ver k l = latest key ver k l') :
    (final key ver l).Perm (final key ver l') := by
  refine (List.perm_ext_iff_of_nodup nodup_final.of_map nodup_final.of_map).2 fun x => ?_
  rw [mem_final, mem_final, h]

/-- A table without superseded rows reads as it is. -/
theorem final_perm_self (h : (l.map key).Nodup) : (final key ver l).Perm l := by
  refine (List.perm_ext_iff_of_nodup nodup_final.of_map h.of_map).2 fun x => ⟨fun hx => final_subset hx, fun hx => ?_⟩
  have hkey : key x ∈ l.map key := List.mem_map.2 ⟨x, hx, rfl⟩
  obtain ⟨y, hy⟩ := exists_latest ver hkey
  obtain ⟨hmem, hk⟩ := latest_mem hy
  have hyx : y = x := List.inj_on_of_nodup_map h hmem hx hk
  exact mem_final.2 (hyx ▸ hy)

/-! ## Dropping superseded rows -/

/-- Another row of its key is newer than the `i`-th, or as new and appended after it. -/
def Superseded (key : α → κ) (ver : α → β) (l : List α) (i : ℕ) : Prop :=
  ∃ x ∈ l[i]?, (∃ y ∈ l.drop (i + 1), key y = key x ∧ ver x ≤ ver y) ∨
    ∃ y ∈ l.take i, key y = key x ∧ ver x < ver y

instance (l : List α) (i : ℕ) : Decidable (Superseded key ver l i) := by
  unfold Superseded
  infer_instance

/-- The table after a row is dropped in the background. -/
def collapse (key : α → κ) (ver : α → β) (l : List α) (i : ℕ) : List α :=
  if Superseded key ver l i then l.eraseIdx i else l

variable {i : ℕ}

omit [DecidableEq κ] in
theorem Superseded.split (h : Superseded key ver l i) : ∃ a x b, l = a ++ x :: b ∧ l.eraseIdx i = a ++ b ∧
    ((∃ y ∈ b, key y = key x ∧ ver x ≤ ver y) ∨ ∃ y ∈ a, key y = key x ∧ ver x < ver y) := by
  obtain ⟨x, hx, h⟩ := h
  obtain ⟨hi, rfl⟩ := List.getElem?_eq_some_iff.1 hx
  exact ⟨l.take i, l[i], l.drop (i + 1), by simp, List.eraseIdx_eq_take_drop_succ .., h⟩

/-- **Dropping superseded rows changes no read.** -/
theorem latest_collapse (l : List α) (i : ℕ) (k : κ) :
    latest key ver k (collapse key ver l i) = latest key ver k l := by
  unfold collapse
  split
  · rename_i h
    obtain ⟨a, x, b, rfl, he, h⟩ := h.split
    rw [he, latest_append, latest_append, latest_cons]
    by_cases hk : key x = k
    · rw [if_pos hk]
      rcases h with ⟨y, hy, hyk, hle⟩ | ⟨y, hy, hyk, hlt⟩
      -- the newer row comes after the one dropped, or before it
      · obtain ⟨w, hw⟩ := exists_latest ver (List.mem_map.2 ⟨y, hy, hyk.trans hk⟩)
        have hxw := hle.trans (latest_greatest hw y hy (hyk.trans hk))
        rw [hw, newer_some_some, if_pos hxw]
      · obtain ⟨w, hw⟩ := exists_latest ver (List.mem_map.2 ⟨y, hy, hyk.trans hk⟩)
        have hxw := hlt.trans_le (latest_greatest hw y hy (hyk.trans hk))
        rw [hw, ← newer_assoc, newer_some_some, if_neg (not_le.2 hxw)]
    · rw [if_neg hk, none_newer]
  · rfl

theorem collapse_sublist : (collapse key ver l i).Sublist l := by
  unfold collapse
  split
  · exact List.eraseIdx_sublist ..
  · exact List.Sublist.refl l

variable (key ver) in
/-- A row dropped leaves one as new of its key. -/
theorem exists_collapse (i : ℕ) (hy : y ∈ l) :
    ∃ z ∈ collapse key ver l i, key z = key y ∧ ver y ≤ ver z := by
  unfold collapse
  split
  · rename_i h
    obtain ⟨a, x, b, rfl, he, h⟩ := h.split
    rw [he]
    have hcases : y ∈ a ++ b ∨ y = x := by
      simp only [List.mem_append, List.mem_cons] at hy ⊢
      tauto
    rcases hcases with hy | rfl
    · exact ⟨y, hy, rfl, le_rfl⟩
    · rcases h with ⟨z, hz, hzk, hle⟩ | ⟨z, hz, hzk, hlt⟩
      · exact ⟨z, List.mem_append_right a hz, hzk, hle⟩
      · exact ⟨z, List.mem_append_left b hz, hzk, hlt.le⟩
  · exact ⟨y, hy, rfl, le_rfl⟩

/-- A table from which superseded rows have been dropped. -/
structure Merged (key : α → κ) (ver : α → β) (l l' : List α) : Prop where
  subset : l' ⊆ l
  latest : ∀ k, latest key ver k l' = latest key ver k l
  kept : ∀ x ∈ l, ∃ y ∈ l', key y = key x ∧ ver x ≤ ver y

theorem Merged.refl (l : List α) : Merged key ver l l :=
  ⟨List.Subset.refl l, fun _ => rfl, fun x hx => ⟨x, hx, rfl, le_rfl⟩⟩

theorem Merged.trans {l₁ l₂ l₃ : List α} (h : Merged key ver l₁ l₂) (h' : Merged key ver l₂ l₃) :
    Merged key ver l₁ l₃ where
  subset := List.Subset.trans h'.subset h.subset
  latest := fun k => (h'.latest k).trans (h.latest k)
  kept := by
    intro x hx
    obtain ⟨y, hy, hyk, hxy⟩ := h.kept x hx
    obtain ⟨z, hz, hzk, hyz⟩ := h'.kept y hy
    exact ⟨z, hz, hzk.trans hyk, hxy.trans hyz⟩

theorem merged_collapse (l : List α) (i : ℕ) : Merged key ver l (collapse key ver l i) :=
  ⟨collapse_sublist.subset, latest_collapse l i, fun _ => exists_collapse key ver i⟩

theorem Merged.final_perm (h : Merged key ver l l') : (final key ver l').Perm (final key ver l) :=
  Replacing.final_perm h.latest

/-- Rows appended to both tables. -/
theorem Merged.append (h : Merged key ver l l') (r : List α) : Merged key ver (l ++ r) (l' ++ r) where
  subset := List.append_subset.2
    ⟨List.Subset.trans h.subset (List.subset_append_left l r), List.subset_append_right l r⟩
  latest := by
    intro k
    rw [latest_append, latest_append, h.latest k]
  kept := by
    intro x hx
    rcases List.mem_append.1 hx with hx | hx
    · obtain ⟨y, hy, hk, hle⟩ := h.kept x hx
      exact ⟨y, List.mem_append_left r hy, hk, hle⟩
    · exact ⟨x, List.mem_append_right l' hx, rfl, le_rfl⟩

/-- A read shows the keys of the table it was merged from. -/
theorem Merged.mem_map_final (h : Merged key ver l l') : k ∈ (final key ver l').map key ↔ k ∈ l.map key := by
  rw [(h.final_perm.map key).mem_iff, Replacing.mem_map_final]

/-! ## Rows written again -/

/-- **A read shows every content once**, where rows of one key have one content. -/
theorem map_final_perm {γ : Type*} [DecidableEq γ] {c : α → γ}
    (hc : ∀ x ∈ l, ∀ y ∈ l, key x = key y ↔ c x = c y) :
    ((final key ver l).map c).Perm (l.map c).dedup := by
  have hnodup : ((final key ver l).map c).Nodup := by
    refine (List.nodup_map_iff_inj_on nodup_final.of_map).2 fun x hx y hy hxy => ?_
    have hk : key x = key y := (hc x (final_subset hx) y (final_subset hy)).2 hxy
    exact List.inj_on_of_nodup_map nodup_final hx hy hk
  refine (List.perm_ext_iff_of_nodup hnodup (List.nodup_dedup _)).2 fun v => ?_
  rw [List.mem_dedup, List.mem_map, List.mem_map]
  constructor
  · rintro ⟨x, hx, rfl⟩
    exact ⟨x, final_subset hx, rfl⟩
  · rintro ⟨y, hy, rfl⟩
    -- the key of the row is read, and what is read has its content
    have hkey : key y ∈ (final key ver l).map key := Replacing.mem_map_final.2 (List.mem_map.2 ⟨y, hy, rfl⟩)
    obtain ⟨x, hx, hk⟩ := List.mem_map.1 hkey
    exact ⟨x, hx, (hc x (final_subset hx) y hy).1 hk⟩

/-- **Two tables matched key by key** show the same contents. -/
theorem map_perm_of_key {α' κ' γ : Type*} {key : α → κ'} {key' : α' → κ'} {c : α → γ} {c' : α' → γ} {l : List α}
    {l' : List α'} (h : (l.map key).Nodup) (h' : (l'.map key').Nodup)
    (hl : ∀ x ∈ l, ∃ y ∈ l', key' y = key x ∧ c' y = c x) (hl' : ∀ y ∈ l', ∃ x ∈ l, key x = key' y) : (l.map c).Perm (l'.map c') := by
  -- with their keys the contents are told apart
  have hpairs : (l.map fun x => (key x, c x)).Perm (l'.map fun y => (key' y, c' y)) := by
    have hnodup : (l.map fun x => (key x, c x)).Nodup := by
      refine List.Nodup.of_map Prod.fst ?_
      rwa [List.map_map]
    have hnodup' : (l'.map fun y => (key' y, c' y)).Nodup := by
      refine List.Nodup.of_map Prod.fst ?_
      rwa [List.map_map]
    refine (List.perm_ext_iff_of_nodup hnodup hnodup').2 fun v => ?_
    rw [List.mem_map, List.mem_map]
    constructor
    · rintro ⟨x, hx, rfl⟩
      obtain ⟨y, hy, hk, hc⟩ := hl x hx
      exact ⟨y, hy, by rw [hk, hc]⟩
    · rintro ⟨y, hy, rfl⟩
      obtain ⟨x, hx, hk⟩ := hl' y hy
      obtain ⟨z, hz, hzk, hzc⟩ := hl x hx
      have hzy : z = y := List.inj_on_of_nodup_map h' hz hy (hzk.trans hk)
      subst hzy
      exact ⟨x, hx, by rw [hzk, hzc]⟩
  have hcontents := hpairs.map Prod.snd
  rwa [List.map_map, List.map_map] at hcontents

/-! ## Without a version -/

/-- An appended row of a key is what the key reads as; a key not appended reads as before. -/
theorem mem_final_append {key : α → κ} (h : (l'.map key).Nodup) :
    x ∈ final key (fun _ => ()) (l ++ l') ↔
      x ∈ l' ∨ x ∈ final key (fun _ => ()) l ∧ key x ∉ l'.map key := by
  have hlatest : ∀ x ∈ l', latest key (fun _ => ()) (key x) l' = some x := by
    intro x hx
    have hkey : key x ∈ l'.map key := List.mem_map.2 ⟨x, hx, rfl⟩
    obtain ⟨y, hy⟩ := exists_latest (fun _ => ()) hkey
    obtain ⟨hmem, hk⟩ := latest_mem hy
    rw [hy, List.inj_on_of_nodup_map h hmem hx hk]
  have hnewer : ∀ (a : Option α) (y : α), newer (fun _ : α => ()) a (some y) = some y := by
    intro a y
    cases a <;> rfl
  rw [mem_final, latest_append, mem_final]
  by_cases hk : key x ∈ l'.map key
  · obtain ⟨y, hy, hyk⟩ := List.mem_map.1 hk
    rw [← hyk, hlatest y hy, hnewer]
    constructor
    · intro hxy
      obtain rfl := Option.some.inj hxy
      exact Or.inl hy
    · rintro (hx | ⟨-, hnot⟩)
      · rw [List.inj_on_of_nodup_map h hy hx hyk]
      · exact absurd (hyk ▸ hk) (hyk ▸ hnot)
  · have hnone : latest key (fun _ => ()) (key x) l' = none := by
      by_contra hne
      exact hk (latest_isSome.1 (Option.isSome_iff_ne_none.2 hne))
    have hx : x ∉ l' := fun hx => hk (List.mem_map.2 ⟨x, hx, rfl⟩)
    rw [hnone, newer_none]
    simp [hx, hk]

end Replacing
