import BlueskyTrends.Proof.Backoff
import Mathlib.Data.List.TakeWhile

/-!
# The pause before a reconnect

* `pauses`: what a trace of the client sleeps after each connection attempt, before the next.
* `pauses_eq`: the client sleeps once after each attempt that fails, and not at all after one that is closed normally.
* `paced_iff`: every reconnect is paced exactly if no attempt but the last is closed normally.
-/

namespace BlueskyTrends

open Client

variable {st : BackoffSettings} {cursor : Option ℤ} {a b : Attempt} {as pre : List Attempt} {es : List ClientEffect}

def ClientEffect.isConnect : ClientEffect → Bool
  | .connect _ => true
  | _ => false

def ClientEffect.delay? : ClientEffect → Option ℚ
  | .sleep d => some d
  | _ => none

/-- The delays slept after each connection attempt and before the next one, if there is one. -/
def pauses : List ClientEffect → List (List ℚ)
  | [] => []
  | e :: es =>
    if e.isConnect then (es.takeWhile fun x => !x.isConnect).filterMap ClientEffect.delay? :: pauses es else pauses es

theorem pauses_quiet (hes : ∀ e ∈ es, e.isConnect = false) : pauses es = [] := by
  induction es with
  | nil => rfl
  | cons e es ih =>
    rw [pauses, if_neg (by simp [hes e])]
    exact ih fun x hx => hes x (List.mem_cons_of_mem _ hx)

/-- One more connection attempt ends the pause after the last one. -/
theorem takeWhile_connect (E : List ClientEffect) :
    (E ++ .connect cursor :: es).takeWhile (fun x => !x.isConnect) = E.takeWhile fun x => !x.isConnect := by
  induction E with
  | nil => rfl
  | cons e E ih => rw [List.cons_append, List.takeWhile_cons, List.takeWhile_cons, ih]

theorem pauses_connect (hes : ∀ e ∈ es, e.isConnect = false) (E : List ClientEffect) :
    pauses (E ++ .connect cursor :: es) = pauses E ++ [es.filterMap ClientEffect.delay?] := by
  induction E with
  | nil =>
    have htake : es.takeWhile (fun x => !x.isConnect) = es := by
      rw [List.takeWhile_eq_self_iff]
      intro e he
      rw [hes e he]
      rfl
    have hcons : pauses (.connect cursor :: es) =
        (es.takeWhile fun x => !x.isConnect).filterMap ClientEffect.delay? :: pauses es := rfl
    rw [List.nil_append, hcons, htake, pauses_quiet hes]
    rfl
  | cons e E ih =>
    rw [List.cons_append, pauses, pauses, ih, takeWhile_connect]
    split <;> rfl

/-- The failures that count for the delay after an attempt: those since the last successful open. -/
def countedFailures (before : List Attempt) (a : Attempt) : ℕ := if a.refused then failures before else 0

/-- What the client sleeps after an attempt. -/
def pause (st : BackoffSettings) (before : List Attempt) (a : Attempt) : List ℚ :=
  if a.fails then (backoffDelay st (countedFailures before a) a.rand).toOption.toList else []

theorem pauses_step (h : (after st cursor as).raised = none) :
    pauses (after st cursor (as ++ [a])).effects = pauses (after st cursor as).effects ++ [pause st as a] := by
  have hcount := (alive_iff st cursor as).1 h
  have hk : ((after st cursor as).opened a).attempt = countedFailures as a := by
    rw [countedFailures, ← hcount]
    rfl
  have hdelay : backoffDelay st ((after st cursor as).opened a).attempt a.rand =
      backoffDelay st (countedFailures as a) a.rand := by rw [hk]
  have hyields : ∀ e ∈ a.yields.map (fun x => ClientEffect.yield x.1), e.isConnect = false ∧ e.delay? = none := by
    intro e he
    obtain ⟨x, -, rfl⟩ := List.mem_map.1 he
    exact ⟨rfl, rfl⟩
  have hquiet : (a.yields.map fun x => ClientEffect.yield x.1).filterMap ClientEffect.delay? = [] :=
    List.filterMap_eq_nil_iff.2 fun e he => (hyields e he).2
  rw [after_snoc, step_eq h, pause]
  by_cases hf : a.fails = true
  · rw [if_pos hf, if_pos hf]
    cases hd : backoffDelay st (countedFailures as a) a.rand with
    | ok d =>
      rw [handle_ok (hdelay.trans hd)]
      have heffects : ((after st cursor as).opened a).effects ++ [ClientEffect.sleep d] =
          (after st cursor as).effects ++ ClientEffect.connect (after st cursor as).latestCursor ::
            ((a.yields.map fun x => ClientEffect.yield x.1) ++ [ClientEffect.sleep d]) := by
        simp [opened]
      simp only [heffects]
      rw [pauses_connect, List.filterMap_append, hquiet]
      · rfl
      · intro e he
        rcases List.mem_append.1 he with he | he
        · exact (hyields e he).1
        · obtain rfl := List.mem_singleton.1 he
          rfl
    | error e =>
      rw [handle_error (hdelay.trans hd)]
      simp only [opened]
      rw [pauses_connect fun e he => (hyields e he).1, hquiet]
      rfl
  · rw [if_neg hf, if_neg hf]
    simp only [opened]
    rw [pauses_connect fun e he => (hyields e he).1, hquiet]

/-- The pauses of a client in its loop: one after each attempt. -/
theorem length_pauses (st : BackoffSettings) (cursor : Option ℤ) (as : List Attempt) :
    (pauses (after st cursor as).effects).length ≤ as.length ∧
    ((after st cursor as).raised = none → (pauses (after st cursor as).effects).length = as.length) := by
  induction as using List.reverseRecOn with
  | nil => exact ⟨le_rfl, fun _ => rfl⟩
  | append_singleton as a ih =>
    cases hc : (after st cursor as).raised with
    | some e =>
      rw [after_snoc, step_raised (by rw [hc]; rfl), hc]
      constructor
      · exact ih.1.trans (by simp)
      · intro h
        cases h
    | none =>
      have hlen : (pauses (after st cursor (as ++ [a])).effects).length = (as ++ [a]).length := by
        rw [pauses_step hc, List.length_append, ih.2 hc, List.length_append]
        rfl
      exact ⟨hlen.le, fun _ => hlen⟩

/-- **What the client sleeps**: after each attempt that it has made, its pause. -/
theorem pauses_eq (st : BackoffSettings) (cursor : Option ℤ) (as : List Attempt) (j : ℕ) :
    (pauses (after st cursor as).effects)[j]? =
      if (after st cursor (as.take j)).raised = none then as[j]?.map (pause st (as.take j)) else none := by
  -- on the last attempt, which adds a pause where the client is still in its loop
  induction as using List.reverseRecOn with
  | nil => simp [after, init, pauses]
  | append_singleton as a ih =>
    obtain ⟨hle, halive⟩ := length_pauses st cursor as
    rcases lt_trichotomy j as.length with hj | rfl | hj
    · rw [List.take_append_of_le_length hj.le, List.getElem?_append_left hj, ← ih]
      cases hc : (after st cursor as).raised with
      | some e => rw [after_snoc, step_raised (by rw [hc]; rfl)]
      | none => rw [pauses_step hc, List.getElem?_append_left (by rw [halive hc]; exact hj)]
    · rw [List.take_left, List.getElem?_concat_length]
      cases hc : (after st cursor as).raised with
      | some e =>
        rw [after_snoc, step_raised (by rw [hc]; rfl), List.getElem?_eq_none hle]
        rfl
      | none =>
        rw [pauses_step hc, ← halive hc, List.getElem?_concat_length]
        rfl
    · have hlen := (length_pauses st cursor (as ++ [a])).1
      have hj' : (as ++ [a]).length ≤ j := by simpa using hj
      rw [List.getElem?_eq_none (hlen.trans hj'), List.getElem?_eq_none hj']
      simp

/-- A client that has gone on after a failure has slept once for it. -/
theorem pause_eq (h : (after st cursor as).raised = none) (hnext : (after st cursor (as ++ [a])).raised = none)
    (hf : a.fails = true) :
    ∃ d, pause st as a = [d] ∧ backoffDelay st (countedFailures as a) a.rand = .ok d := by
  have hcount := (alive_iff st cursor as).1 h
  have hk : ((after st cursor as).opened a).attempt = countedFailures as a := by
    rw [countedFailures, ← hcount]
    rfl
  rw [pause, if_pos hf]
  cases hd : backoffDelay st (countedFailures as a) a.rand with
  | ok d => exact ⟨d, rfl, rfl⟩
  | error e =>
    rw [after_snoc, step_eq h, if_pos hf, handle_error (hk ▸ hd)] at hnext
    cases hnext

/-- The attempts that the client makes are those it meets in its loop. -/
theorem pauses_some {j : ℕ} {slept : List ℚ} : (pauses (after st cursor as).effects)[j]? = some slept ↔
    (after st cursor (as.take j)).raised = none ∧ ∃ a, as[j]? = some a ∧ pause st (as.take j) a = slept := by
  rw [pauses_eq]
  split
  · rename_i halive
    rw [Option.map_eq_some_iff]
    exact ⟨fun h => ⟨halive, h⟩, fun h => h.2⟩
  · rename_i hraised
    exact ⟨fun h => (nomatch h), fun h => absurd h.1 hraised⟩

/-- Between any two successive connection attempts the client sleeps exactly once, for the delay of the failures since
the last successful open. -/
def Paced (st : BackoffSettings) (cursor : Option ℤ) (as : List Attempt) : Prop :=
  ∀ j a slept, as[j]? = some a → (pauses (after st cursor as).effects)[j]? = some slept →
    j + 1 < (pauses (after st cursor as).effects).length →
    ∃ d, slept = [d] ∧ backoffDelay st (countedFailures (as.take j) a) a.rand = .ok d

/-- An attempt that is closed normally and followed by another one, without an outage before it. -/
theorem Paced.fails {before rest : List Attempt} (h : Paced st cursor (before ++ a :: b :: rest))
    (hout : ∀ pre, pre <+: before → ¬ Outage 1024 pre) : a.fails = true := by
  by_contra hf
  have halive : (after st cursor before).raised = none := (alive_iff st cursor before).2.2 hout
  -- it is not a refusal, so the next attempt is made
  have hr : a.refused = true → (after st cursor before).attempt < 1024 :=
    fun hr => absurd (Attempt.refused_fails hr) hf
  have hnext : (after st cursor (before ++ [a])).raised = none := by
    rw [after_snoc]
    exact (step_counts st halive hr).1
  have htake : (before ++ a :: b :: rest).take before.length = before := List.take_left
  have htake' : (before ++ a :: b :: rest).take (before.length + 1) = before ++ [a] := by
    rw [List.take_length_add_append]
    rfl
  have hget : (before ++ a :: b :: rest)[before.length]? = some a := by simp
  have hget' : (before ++ a :: b :: rest)[before.length + 1]? = some b := by simp
  have hslept := pauses_some.2 ⟨htake.symm ▸ halive, a, hget, rfl⟩
  have hmade := pauses_some.2 ⟨htake'.symm ▸ hnext, b, hget', rfl⟩
  obtain ⟨hlt, -⟩ := List.getElem?_eq_some_iff.1 hmade
  obtain ⟨d, hd, -⟩ := h before.length a _ hget hslept hlt
  rw [pause, if_neg hf] at hd
  cases hd

/-- **Every reconnect is paced exactly if every attempt before the last one fails**, up to an outage that has ended
the loop. -/
theorem paced_iff (st : BackoffSettings) (cursor : Option ℤ) (as : List Attempt) :
    Paced st cursor as ↔ ∀ before a b rest, as = before ++ a :: b :: rest →
      a.fails = true ∨ ∃ pre, pre <+: before ∧ Outage 1024 pre := by
  constructor
  · rintro hpaced before a b rest rfl
    by_contra hno
    rw [not_or] at hno
    exact hno.1 (hpaced.fails fun pre hpre h => hno.2 ⟨pre, hpre, h⟩)
  · intro hall j a slept hget hslept hlt
    obtain ⟨halive, a', hget', hpause⟩ := pauses_some.1 hslept
    obtain rfl := Option.some.inj (hget'.symm.trans hget)
    obtain ⟨hnext, b, hb, -⟩ := pauses_some.1 (List.getElem?_eq_getElem hlt)
    have htake : as.take (j + 1) = as.take j ++ [a'] := by
      rw [List.take_add_one, hget]
      rfl
    have has : as = as.take j ++ a' :: b :: as.drop (j + 2) := by
      obtain ⟨hlen, hbj⟩ := List.getElem?_eq_some_iff.1 hb
      have hdrop := List.take_append_drop (j + 1) as
      rw [htake, List.drop_eq_getElem_cons hlen, hbj] at hdrop
      simpa using hdrop.symm
    rcases hall _ _ _ _ has with hf | ⟨pre, hpre, hout⟩
    · rw [← hpause]
      exact pause_eq halive (htake ▸ hnext) hf
    · exact absurd hout ((alive_iff st cursor _).2.1 halive pre hpre)

/-- **A normal close** is followed by the next attempt at once. -/
theorem closed_not_paced : ¬ Paced defaultBackoff none [⟨.opened [] true, 0⟩, ⟨.opened [] true, 0⟩] := by
  intro hpaced
  obtain ⟨d, hd, -⟩ := hpaced 0 ⟨.opened [] true, 0⟩ [] rfl rfl (by decide)
  cases hd

end BlueskyTrends
