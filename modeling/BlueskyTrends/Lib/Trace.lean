import Mathlib.Tactic

/-!
# Runs of a step function

A system is a step function `step : σ → α → σ`; an action that cannot happen in
a state leaves it as it is, so every list of actions is a run.

* `run_inv`: an invariant that every step preserves holds after every run.
* `run_inv_along`: the same when steps preserve it under a side condition, for
  the runs all of whose steps meet the condition in the state they start from.
* `forall_prefix_iff_along`: a property holds throughout a run exactly when its steps
  meet the condition, where steps that do not break it.
* `run_congr_along`: two step functions that agree on the states of an invariant make the same run.
* `run_sim`: two systems whose related actions keep their states related stay related.
* `run_view`: components that step apart, interleaved in any order, each make the run of their own actions.
* `along_of_persist`: the steps of a run have met the condition if what breaks with it
  is not broken at the end.
* `run_iff_sometime`: what only steps that meet a condition bring about, and no step undoes, holds at the end
  exactly when some step of the run has met the condition.
-/

namespace Trace

variable {σ α : Type*}

/-- The state after the actions `as`. -/
def run (step : σ → α → σ) (s : σ) (as : List α) : σ := as.foldl step s

/-- Every action of the run meets `ok` in the state it is taken in. -/
def Along (step : σ → α → σ) (ok : σ → α → Prop) : σ → List α → Prop
  | _, [] => True
  | s, a :: as => ok s a ∧ Along step ok (step s a) as

/-- Some action of the run meets `ok` in the state it is taken in. -/
def Sometime (step : σ → α → σ) (ok : σ → α → Prop) : σ → List α → Prop
  | _, [] => False
  | s, a :: as => ok s a ∨ Sometime step ok (step s a) as

variable {step : σ → α → σ} {ok : σ → α → Prop} {s : σ} {as bs : List α} {a : α}

@[simp] theorem run_nil : run step s [] = s := rfl

@[simp] theorem run_cons : run step s (a :: as) = run step (step s a) as := rfl

theorem run_append : run step s (as ++ bs) = run step (run step s as) bs := by
  simp [run, List.foldl_append]

@[simp] theorem along_nil : Along step ok s [] := trivial

@[simp] theorem along_cons : Along step ok s (a :: as) ↔ ok s a ∧ Along step ok (step s a) as := Iff.rfl

instance decidableAlong [∀ s a, Decidable (ok s a)] : ∀ s as, Decidable (Along step ok s as)
  | _, [] => isTrue trivial
  | s, a :: as => @instDecidableAnd (ok s a) _ _ (decidableAlong (step s a) as)

theorem along_append :
    Along step ok s (as ++ bs) ↔ Along step ok s as ∧ Along step ok (run step s as) bs := by
  induction as generalizing s with
  | nil => simp
  | cons a as ih => simp [ih, and_assoc]

theorem along_of_forall (h : ∀ s, ∀ a ∈ as, ok s a) : Along step ok s as := by
  induction as generalizing s with
  | nil => trivial
  | cons a as ih => exact ⟨h s a List.mem_cons_self, ih fun s b hb => h s b (List.mem_cons_of_mem _ hb)⟩

theorem along_mono {ok' : σ → α → Prop} (h : ∀ s a, ok s a → ok' s a) (hok : Along step ok s as) :
    Along step ok' s as := by
  induction as generalizing s with
  | nil => trivial
  | cons a as ih => exact ⟨h s a hok.1, ih hok.2⟩

/-- A side condition met all along a run is met all along each of its prefixes. -/
theorem Along.prefix (h : Along step ok s (as ++ bs)) : Along step ok s as :=
  (along_append.1 h).1

/-- **Conditional invariants.** If steps that meet `ok` preserve `I`, then `I`
holds after every run whose steps all meet `ok`. -/
theorem run_inv_along {I : σ → Prop} (hstep : ∀ s a, ok s a → I s → I (step s a))
    (h0 : I s) (hok : Along step ok s as) : I (run step s as) := by
  induction as generalizing s with
  | nil => exact h0
  | cons a as ih => exact ih (hstep s a hok.1 h0) hok.2

/-- **Invariants.** What every step preserves holds after every run. -/
theorem run_inv {I : σ → Prop} (hstep : ∀ s a, I s → I (step s a)) (h0 : I s)
    (as : List α) : I (run step s as) := by
  induction as generalizing s with
  | nil => exact h0
  | cons a as ih => exact ih (hstep s a h0)

/-- **Agreement.** Two step functions that agree where an invariant holds make the same run. -/
theorem run_congr_along {step' : σ → α → σ} {I : σ → Prop} (heq : ∀ s a, ok s a → I s → step' s a = step s a)
    (hstep : ∀ s a, ok s a → I s → I (step s a)) (h0 : I s) (hok : Along step ok s as) :
    run step' s as = run step s as := by
  induction as generalizing s with
  | nil => rfl
  | cons a as ih =>
    rw [run_cons, run_cons, heq s a hok.1 h0]
    exact ih (hstep s a hok.1 h0) hok.2

/-- **Simulations.** Two systems stay related over runs of related actions. -/
theorem run_sim {τ β : Type*} {step' : τ → β → τ} {R : σ → τ → Prop} {A : α → β → Prop} {t : τ} {bs : List β}
    (hstep : ∀ s t a b, A a b → R s t → R (step s a) (step' t b)) (h0 : R s t) (h : List.Forall₂ A as bs) :
    R (run step s as) (run step' t bs) := by
  induction h generalizing s t with
  | nil => exact h0
  | cons hab _ ih => exact ih (hstep s t _ _ hab h0)

/-- **Interleavings.** Where an action of one component changes no other, each component makes, in an interleaving,
the run of its own actions. -/
theorem run_view {ι τ : Type*} [DecidableEq ι] {step : σ → ι × α → σ} {step' : ι → τ → α → τ} {view : σ → ι → τ}
    (hown : ∀ s i a, view (step s (i, a)) i = step' i (view s i) a)
    (hother : ∀ s i a j, j ≠ i → view (step s (i, a)) j = view s j) (s : σ) (as : List (ι × α)) (j : ι) :
    view (run step s as) j = run (step' j) (view s j) ((as.filter fun x => x.1 = j).map Prod.snd) := by
  induction as generalizing s with
  | nil => rfl
  | cons x as ih =>
    obtain ⟨i, a⟩ := x
    rw [run_cons, ih]
    by_cases h : i = j
    · subst h
      rw [hown, List.filter_cons_of_pos (by simp), List.map_cons, run_cons]
    · rw [hother s i a j (Ne.symm h), List.filter_cons_of_neg (by simpa using h)]

/-- A condition that follows, in the states of an invariant, from one met all along a run is met all
along it. -/
theorem along_imp_inv {I : σ → Prop} {ok' : σ → α → Prop} (himp : ∀ s a, I s → ok s a → ok' s a)
    (hstep : ∀ s a, ok' s a → I s → I (step s a)) (h0 : I s) (h : Along step ok s as) :
    Along step ok' s as := by
  induction as generalizing s with
  | nil => trivial
  | cons a as ih =>
    have hok := himp s a h0 h.1
    exact ⟨hok, ih (hstep s a hok h0) h.2⟩

theorem along_and {ok' : σ → α → Prop} :
    Along step (fun s a => ok s a ∧ ok' s a) s as ↔ Along step ok s as ∧ Along step ok' s as := by
  induction as generalizing s with
  | nil => simp
  | cons a as ih => simp only [along_cons, ih]; tauto

/-- **Exact conditions.** If steps that meet `ok` preserve `I`, `I` gives `P`, and a step
that does not meet `ok` breaks `P`, then `P` holds throughout a run exactly when all its steps
meet `ok`. -/
theorem forall_prefix_iff_along {I P : σ → Prop} (hstep : ∀ s a, ok s a → I s → I (step s a))
    (hP : ∀ s, I s → P s) (hbad : ∀ s a, I s → ¬ ok s a → ¬ P (step s a)) (h0 : I s) :
    (∀ bs, bs <+: as → P (run step s bs)) ↔ Along step ok s as := by
  constructor
  · intro h
    induction as generalizing s with
    | nil => trivial
    | cons a as ih =>
      have hok : ok s a := by
        by_contra hno
        exact hbad s a h0 hno (h [a] (List.cons_prefix_cons.2 ⟨rfl, List.nil_prefix⟩))
      exact ⟨hok, ih (hstep s a hok h0) fun bs hbs => h (a :: bs) (List.cons_prefix_cons.2 ⟨rfl, hbs⟩)⟩
  · rintro h bs ⟨cs, rfl⟩
    exact hP _ (run_inv_along hstep h0 h.prefix)

/-- A condition that a run cannot have broken, as what breaks with it stays broken. -/
theorem along_of_persist {I B : σ → Prop} (hstep : ∀ s a, ok s a → I s → I (step s a))
    (hbad : ∀ s a, I s → ¬ ok s a → B (step s a)) (hpersist : ∀ s a, B s → B (step s a)) (h0 : I s)
    (h : ¬ B (run step s as)) : Along step ok s as := by
  induction as generalizing s with
  | nil => trivial
  | cons a as ih =>
    have hok : ok s a := by
      by_contra hno
      exact h (run_inv hpersist (hbad s a h0 hno) as)
    exact ⟨hok, ih (hstep s a hok h0) h⟩

@[simp] theorem sometime_nil : ¬ Sometime step ok s [] := not_false

@[simp] theorem sometime_cons : Sometime step ok s (a :: as) ↔ ok s a ∨ Sometime step ok (step s a) as := Iff.rfl

theorem sometime_append :
    Sometime step ok s (as ++ bs) ↔ Sometime step ok s as ∨ Sometime step ok (run step s as) bs := by
  induction as generalizing s with
  | nil => simp
  | cons a as ih => simp [ih, or_assoc]

/-- **What some step has brought about.** -/
theorem run_iff_sometime {I B : σ → Prop} (hstep : ∀ s a, I s → I (step s a))
    (hB : ∀ s a, I s → (B (step s a) ↔ B s ∨ ok s a)) (h0 : I s) (as : List α) :
    B (run step s as) ↔ B s ∨ Sometime step ok s as := by
  induction as generalizing s with
  | nil => simp
  | cons a as ih => rw [run_cons, ih (hstep s a h0), hB s a h0, sometime_cons, or_assoc]

end Trace
