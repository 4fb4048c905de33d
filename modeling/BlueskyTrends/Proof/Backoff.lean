import BlueskyTrends.Ingest.Jetstream
import BlueskyTrends.Lib.Trace

/-!
# Backoff through a long outage

* `failures`: the attempts that have failed since the last successful open; the client counts them.
* `Outage`: an attempt that fails, then refusals. `raised_iff`: the client has left its loop exactly after a failure
  followed by 1024 refusals.
* `backoff_iff`: a delay is returned, within its bounds, exactly below 1024 failures.
-/

namespace BlueskyTrends

variable {st : BackoffSettings} {n : ℕ} {rand : ℚ} {a : Attempt} {as : List Attempt} {cursor : Option ℤ}

/-- One more attempt: a refusal is one more failure; an open starts again, with the failure that ends it, if any. -/
def failuresStep (k : ℕ) (a : Attempt) : ℕ := if a.refused then k + 1 else if a.fails then 1 else 0

/-- The failures since the last successful open. -/
def failures (as : List Attempt) : ℕ := as.foldl failuresStep 0

theorem failures_snoc : failures (as ++ [a]) = failuresStep (failures as) a := by
  simp [failures]

theorem Attempt.refused_fails (h : a.refused = true) : a.fails = true := by
  unfold Attempt.refused at h
  unfold Attempt.fails
  cases ho : a.outcome with
  | refused => rfl
  | opened frames closed => rw [ho] at h; cases h

/-- The attempts end with one that fails and `n` refusals after it. -/
def Outage (n : ℕ) (as : List Attempt) : Prop :=
  ∃ pre f rs, as = pre ++ f :: rs ∧ f.fails = true ∧ rs.length = n ∧ ∀ r ∈ rs, r.refused = true

theorem outage_nil : ¬ Outage n [] := by
  rintro ⟨pre, f, rs, h, -⟩
  simp at h

theorem outage_zero : Outage 0 (as ++ [a]) ↔ a.fails = true := by
  constructor
  · rintro ⟨pre, f, rs, h, hf, hlen, -⟩
    obtain rfl := List.length_eq_zero_iff.1 hlen
    obtain ⟨-, haf⟩ := List.append_inj' h rfl
    obtain rfl : a = f := by simpa using haf
    exact hf
  · intro hf
    exact ⟨as, a, [], rfl, hf, rfl, by simp⟩

theorem outage_succ : Outage (n + 1) (as ++ [a]) ↔ a.refused = true ∧ Outage n as := by
  constructor
  · rintro ⟨pre, f, rs, h, hf, hlen, hrs⟩
    rcases List.eq_nil_or_concat rs with rfl | ⟨rs, r, rfl⟩
    · cases hlen
    · have hsnoc : as ++ [a] = (pre ++ f :: rs) ++ [r] := by simpa using h
      obtain ⟨has, har⟩ := List.append_inj' hsnoc rfl
      obtain rfl : a = r := by simpa using har
      refine ⟨hrs a (by simp), pre, f, rs, has, hf, by simpa using hlen, fun r hr => hrs r ?_⟩
      simp [hr]
  · rintro ⟨ha, pre, f, rs, rfl, hf, rfl, hrs⟩
    refine ⟨pre, f, rs ++ [a], by simp, hf, by simp, fun r hr => ?_⟩
    rcases List.mem_append.1 hr with hr | hr
    · exact hrs r hr
    · obtain rfl := List.mem_singleton.1 hr
      exact ha

/-- **Counting failures** finds the outage. -/
theorem lt_failures_iff : n < failures as ↔ Outage n as := by
  -- on the last attempt: it extends the outage, or starts one, or ends it
  induction as using List.reverseRecOn generalizing n with
  | nil => simp [failures, outage_nil]
  | append_singleton as a ih =>
    rw [failures_snoc, failuresStep]
    by_cases hr : a.refused = true
    · rw [if_pos hr]
      cases n with
      | zero => simp [outage_zero, Attempt.refused_fails hr]
      | succ n => rw [outage_succ, ← ih]; simp [hr]
    · rw [if_neg hr]
      cases n with
      | zero => rw [outage_zero]; split <;> simp_all
      | succ n =>
        have hno : ¬ Outage (n + 1) (as ++ [a]) := fun h => hr (outage_succ.1 h).1
        have hle : ¬ n + 1 < if a.fails = true then 1 else 0 := by split <;> omega
        exact iff_of_false hle hno

namespace Client

/-- The client after the attempts `as`. -/
def after (st : BackoffSettings) (cursor : Option ℤ) (as : List Attempt) : Client :=
  Trace.run (step st) (init cursor) as

theorem after_snoc (st : BackoffSettings) (cursor : Option ℤ) (as : List Attempt) (a : Attempt) :
    after st cursor (as ++ [a]) = (after st cursor as).step st a := by
  rw [after, Trace.run_append]
  rfl

variable {c : Client}

theorem step_raised (h : c.raised.isSome) : c.step st a = c := by
  rw [step, if_pos h]

/-- What the handler does below the limit, and at it. -/
theorem handle_ok {d : ℚ} (h : backoffDelay st c.attempt rand = .ok d) :
    c.handle st rand = { c with effects := c.effects ++ [.sleep d], attempt := c.attempt + 1 } := by
  rw [handle, h]
  rfl

theorem handle_error {e : OverflowError} (h : backoffDelay st c.attempt rand = .error e) :
    c.handle st rand = { c with raised := some e } := by
  rw [handle, h]

variable (st) in
/-- An iteration that counts fewer than 1024 failures goes on in the loop. -/
theorem step_counts (h : c.raised = none) (hlt : a.refused = true → c.attempt < 1024) :
    (c.step st a).raised = none ∧ (c.step st a).attempt = failuresStep c.attempt a := by
  have hattempt : (c.opened a).attempt = if a.refused then c.attempt else 0 := rfl
  rw [step_eq h, failuresStep]
  by_cases hf : a.fails = true
  · have hk : (c.opened a).attempt < 1024 := by
      rw [hattempt]
      split
      · exact hlt ‹_›
      · omega
    rw [if_pos hf, handle_ok (backoffDelay_ok hk)]
    refine ⟨h, ?_⟩
    simp only [hattempt, hf, if_true]
    split <;> rfl
  · have hr : a.refused = false := Bool.eq_false_iff.2 fun hr => hf (Attempt.refused_fails hr)
    rw [if_neg hf]
    refine ⟨h, ?_⟩
    simp [hattempt, hr, hf]

variable (st) in
/-- A refusal after 1024 failures ends the loop. -/
theorem step_overflows (h : c.raised = none) (ha : a.refused = true) (hk : 1024 ≤ c.attempt) :
    (c.step st a).raised ≠ none := by
  have hattempt : (c.opened a).attempt = c.attempt := by
    simp [opened, ha]
  rw [step_eq h, if_pos (Attempt.refused_fails ha), handle_error (backoffDelay_error (hattempt ▸ hk))]
  simp

/-- **A client in its loop** has counted the failures, and has met no outage of 1024 refusals. -/
theorem alive_iff (st : BackoffSettings) (cursor : Option ℤ) (as : List Attempt) :
    ((after st cursor as).raised = none → (after st cursor as).attempt = failures as) ∧
      ((after st cursor as).raised = none ↔ ∀ pre, pre <+: as → ¬ Outage 1024 pre) := by
  -- on the last attempt
  induction as using List.reverseRecOn with
  | nil =>
    refine ⟨fun _ => rfl, iff_of_true rfl fun pre hpre => ?_⟩
    rw [List.prefix_nil.1 hpre]
    exact outage_nil
  | append_singleton as a ih =>
    have hsplit : ∀ pre, pre <+: as ++ [a] ↔ pre <+: as ∨ pre = as ++ [a] := by
      intro pre
      rw [List.prefix_concat_iff, or_comm]
    rw [after_snoc]
    cases hc : (after st cursor as).raised with
    | some e =>
      have hdead : (after st cursor as).raised.isSome := by rw [hc]; rfl
      rw [step_raised hdead, hc]
      refine ⟨fun h => (nomatch h), iff_of_false (by simp) fun h => ?_⟩
      have hgood := ih.2.2 fun pre hpre => h pre ((hsplit pre).2 (Or.inl hpre))
      rw [hc] at hgood
      cases hgood
    | none =>
      have hcount := ih.1 hc
      have hbefore := ih.2.1 hc
      have hlast : Outage 1024 (as ++ [a]) ↔ a.refused = true ∧ 1024 ≤ failures as := by
        rw [outage_succ, ← lt_failures_iff, Nat.lt_iff_add_one_le]
      by_cases hover : a.refused = true ∧ 1024 ≤ failures as
      · have hraised := step_overflows st hc hover.1 (hcount ▸ hover.2)
        refine ⟨fun h => absurd h hraised, iff_of_false hraised fun h => ?_⟩
        exact h _ List.prefix_rfl (hlast.2 hover)
      · have hlt : a.refused = true → (after st cursor as).attempt < 1024 := by
          intro ha
          by_contra hge
          exact hover ⟨ha, by omega⟩
        obtain ⟨halive, hnext⟩ := step_counts st hc hlt
        refine ⟨fun _ => by rw [hnext, failures_snoc, hcount], iff_of_true halive fun pre hpre => ?_⟩
        rcases (hsplit pre).1 hpre with hpre | rfl
        · exact hbefore pre hpre
        · exact fun h => hover (hlast.1 h)

end Client

open Client

/-- The capped exponential does not decrease. -/
theorem base_mono (hi : 0 ≤ st.backoffInitialSeconds) (n : ℕ) : st.base n ≤ st.base (n + 1) := by
  have hpow : (2 : ℚ) ^ n ≤ 2 ^ (n + 1) := pow_le_pow_right₀ (by norm_num) (Nat.le_succ n)
  exact min_le_min_right _ (mul_le_mul_of_nonneg_left hpow hi)

/-- A delay lies within the jitter around the capped exponential. -/
theorem backoffDelay_bounds (hi : 0 ≤ st.backoffInitialSeconds) (hm : 0 ≤ st.backoffMaxSeconds)
    (hj : 0 ≤ st.backoffJitterRatio) (hr₀ : 0 ≤ rand) (hr₁ : rand < 1) (hn : n < 1024) :
    ∃ d, backoffDelay st n rand = .ok d ∧ st.base n * (1 - st.backoffJitterRatio) ≤ d ∧
      d ≤ st.base n * (1 + st.backoffJitterRatio) := by
  have hbase : 0 ≤ st.base n := le_min (mul_nonneg hi (by positivity)) hm
  have hswing : 0 ≤ st.base n * st.backoffJitterRatio := mul_nonneg hbase hj
  have hlow := mul_nonneg hswing hr₀
  have hhigh : st.base n * st.backoffJitterRatio * rand ≤ st.base n * st.backoffJitterRatio :=
    mul_le_of_le_one_right hswing hr₁.le
  refine ⟨_, backoffDelay_ok hn, le_max_of_le_right (by linarith), max_le ?_ (by linarith)⟩
  exact mul_nonneg hbase (by linarith)

/-- **Backoff is total exactly below 1024 failures.** The capped exponential never decreases; a delay is returned,
and lies within the jitter around it, exactly if fewer than 1024 failures are counted; and the client has left its
loop with an exception exactly if 1024 refusals have followed a failed attempt. -/
theorem backoff_iff (st : BackoffSettings) (hi : 0 ≤ st.backoffInitialSeconds) (hm : 0 ≤ st.backoffMaxSeconds)
    (hj : 0 ≤ st.backoffJitterRatio) :
    (∀ n, st.base n ≤ st.base (n + 1)) ∧
    (∀ n rand, 0 ≤ rand → rand < 1 →
      ((∃ d, backoffDelay st n rand = .ok d ∧ st.base n * (1 - st.backoffJitterRatio) ≤ d ∧
        d ≤ st.base n * (1 + st.backoffJitterRatio)) ↔ n < 1024)) ∧
    ∀ cursor as, (after st cursor as).raised = none ↔ ∀ pre, pre <+: as → ¬ Outage 1024 pre := by
  refine ⟨base_mono hi, ?_, fun cursor as => (alive_iff st cursor as).2⟩
  intro n rand hr₀ hr₁
  constructor
  · rintro ⟨d, hd, -⟩
    by_contra hn
    rw [backoffDelay_error (by omega)] at hd
    cases hd
  · exact backoffDelay_bounds hi hm hj hr₀ hr₁

/-- The defaults. -/
def defaultBackoff : BackoffSettings := ⟨1, 60, 1 / 5⟩

theorem backoff_iff_default :
    (∃ d, backoffDelay defaultBackoff 100 (1 / 2) = .ok d ∧ 48 ≤ d ∧ d ≤ 72) ∧
      (after defaultBackoff none [⟨.refused, 0⟩]).raised = none := by
  obtain ⟨-, hdelay, hloop⟩ := backoff_iff defaultBackoff (by decide +kernel) (by decide +kernel) (by decide +kernel)
  obtain ⟨d, hd, hlow, hhigh⟩ := (hdelay 100 (1 / 2) (by norm_num) (by norm_num)).2 (by norm_num)
  have hbase : defaultBackoff.base 100 = 60 := by decide +kernel
  rw [hbase] at hlow hhigh
  norm_num [defaultBackoff] at hlow hhigh
  refine ⟨⟨d, hd, hlow, hhigh⟩, (hloop none [⟨.refused, 0⟩]).2 ?_⟩
  rintro pre ⟨post, hpre⟩ ⟨_, _, rs, rfl, -, hlen, -⟩
  have hle := congrArg List.length hpre
  simp only [List.length_append, List.length_cons, List.length_nil] at hle
  omega

/-- **The outage of 1025 refusals**: the last has no delay, and ends the loop. -/
theorem backoff_overflows :
    backoffDelay defaultBackoff 1024 (1 / 2) = .error ⟨"int too large to convert to float"⟩ ∧
      (after defaultBackoff none (List.replicate 1025 ⟨.refused, 1 / 2⟩)).raised ≠ none := by
  refine ⟨backoffDelay_error (Nat.le_refl 1024), fun h => ?_⟩
  have houtage : Outage 1024 (List.replicate 1025 ⟨.refused, 1 / 2⟩) := by
    refine ⟨[], ⟨.refused, 1 / 2⟩, List.replicate 1024 ⟨.refused, 1 / 2⟩, rfl, rfl, List.length_replicate, ?_⟩
    intro r hr
    rw [List.eq_of_mem_replicate hr]
    rfl
  exact (alive_iff _ _ _).2.1 h _ List.prefix_rfl houtage

end BlueskyTrends
