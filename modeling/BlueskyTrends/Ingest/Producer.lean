import BlueskyTrends.Ingest.Loop

/-!
# The producer's queue

`_enqueue` of `ingest/producer.py`, on the queue of librdkafka: it holds at most `limit` messages,
each until the report of its delivery is serviced, and `produce` raises a `BufferError` when it is
full. `_enqueue` then polls and tries again, five times, and lets the sixth `BufferError` propagate.

A process whose sends go through `_enqueue` is one whose steps are steps of `Proc`.

* `serviced_frame`: what a poll leaves as it is.
* `enqueue_spec`: **what `_enqueue` does**: it sends at the first attempt that finds room, or gives up.
* `bounded_eq`: every step is a run of the process.
-/

namespace BlueskyTrends

/-- A serviced report: the message, by its place in the queue, and its outcome. -/
abbrev Report := ℕ × Bool

namespace Proc

/-- The next call goes through `_enqueue`. -/
def sending (p : Proc) : Bool := match p.todo with
  | .produce _ _ :: _ | .produceDlq _ _ _ :: _ => true
  | _ => false

def full (limit : ℕ) (p : Proc) : Bool := limit ≤ p.inflight.length

/-- The actions of a poll that services `reports`. -/
def reportActs (reports : List Report) : List Act := reports.map fun r => .report r.1 r.2

/-- A poll. -/
def serviced (H : Host) (st : IngestSettings) (p : Proc) (reports : List Report) : Proc :=
  Trace.run (step H st) p (reportActs reports)

/-- `_enqueue`: an attempt for each of the polls that may follow it, and a final one. -/
def enqueue (H : Host) (st : IngestSettings) (limit : ℕ) (p : Proc) : List (List Report) → Proc
  | [] => if p.full limit then p.step H st .raise else p.step H st .call
  | reports :: polls =>
    if p.full limit then (p.serviced H st reports).enqueue H st limit polls else p.step H st .call

/-- `range(5)`. -/
def enqueueAttempts : ℕ := 5

/-- What can happen to a process whose producer has a bounded queue. -/
inductive BoundedAct where
  /-- The next call enqueues its message; its polls service `polls`. -/
  | enqueue (polls : List (List Report))
  /-- Anything else. -/
  | other (a : Act)

/-- The step is not one inside `_enqueue`: no message is held without it, and no report serviced. -/
def outside (p : Proc) : Act → Bool
  | .call | .report _ _ => !p.sending
  | _ => true

def boundedStep (H : Host) (st : IngestSettings) (limit : ℕ) (p : Proc) : BoundedAct → Proc
  | .enqueue polls =>
    if p.sending && polls.length = enqueueAttempts then p.enqueue H st limit polls else p
  | .other a => if p.outside a then p.step H st a else p

/-- The actions `_enqueue` takes. -/
def enqueueActs (H : Host) (st : IngestSettings) (limit : ℕ) (p : Proc) : List (List Report) → List Act
  | [] => if p.full limit then [.raise] else [.call]
  | reports :: polls =>
    if p.full limit then reportActs reports ++ enqueueActs H st limit (p.serviced H st reports) polls
    else [.call]

def boundedActs (H : Host) (st : IngestSettings) (limit : ℕ) (p : Proc) : BoundedAct → List Act
  | .enqueue polls =>
    if p.sending && polls.length = enqueueAttempts then p.enqueueActs H st limit polls else []
  | .other a => if p.outside a then [a] else []

variable {H : Host} {st : IngestSettings} {limit : ℕ} {p : Proc} {c : Call} {rest : List Call}

/-! ## Polls -/

theorem sending_iff : p.sending ↔ ∃ c rest, p.todo = c :: rest ∧
    ((∃ m t, c = .produce m t) ∨ ∃ raw error topic, c = .produceDlq raw error topic) := by
  unfold sending
  constructor
  · intro h
    split at h
    · rename_i m t rest hp
      exact ⟨_, rest, hp, Or.inl ⟨m, t, rfl⟩⟩
    · rename_i raw error topic rest hp
      exact ⟨_, rest, hp, Or.inr ⟨raw, error, topic, rfl⟩⟩
    · cases h
  · rintro ⟨c, rest, hp, ⟨m, t, rfl⟩ | ⟨raw, error, topic, rfl⟩⟩
    · rw [hp]
    · rw [hp]

/-- What servicing reports leaves as it is. -/
structure SameLoop (p q : Proc) : Prop where
  todo : q.todo = p.todo
  draining : q.draining = p.draining
  seen : q.seen = p.seen
  registered : q.registered = p.registered

theorem SameLoop.refl (p : Proc) : SameLoop p p := ⟨rfl, rfl, rfl, rfl⟩

theorem SameLoop.trans {q r : Proc} (h : SameLoop p q) (h' : SameLoop q r) : SameLoop p r :=
  ⟨h'.todo.trans h.todo, h'.draining.trans h.draining, h'.seen.trans h.seen,
    h'.registered.trans h.registered⟩

theorem SameLoop.sending {q : Proc} (h : SameLoop p q) : q.sending = p.sending := by
  unfold Proc.sending
  rw [h.todo]

/-- A serviced report takes its message out of the queue. -/
theorem report_frame (H : Host) (st : IngestSettings) (hs : p.sending) (r : Report) :
    SameLoop p (p.step H st (.report r.1 r.2)) ∧
      (p.step H st (.report r.1 r.2)).inflight = p.inflight.eraseIdx r.1 := by
  obtain ⟨c, rest, hp, hc⟩ := sending_iff.1 hs
  have hservices : services c = true := by
    rcases hc with ⟨m, t, rfl⟩ | ⟨raw, error, topic, rfl⟩
    · rfl
    · rfl
  rw [step_report_cons hp]
  cases hd : p.inflight[r.1]? with
  | none =>
    have hlen : p.inflight.length ≤ r.1 := List.getElem?_eq_none_iff.1 hd
    exact ⟨SameLoop.refl p, (List.eraseIdx_of_length_le hlen).symm⟩
  | some d =>
    simp only [Option.map_some, Option.getD_some, hservices, if_true]
    exact ⟨⟨rfl, rfl, rfl, rfl⟩, rfl⟩

theorem serviced_append (reports more : List Report) :
    p.serviced H st (reports ++ more) = (p.serviced H st reports).serviced H st more := by
  unfold serviced reportActs
  rw [List.map_append, Trace.run_append]

/-- **A poll** takes messages out of the queue, and leaves the rest of the loop as it is. -/
theorem serviced_frame (H : Host) (st : IngestSettings) (hs : p.sending) (reports : List Report) :
    SameLoop p (p.serviced H st reports) ∧
      (p.serviced H st reports).inflight = reports.foldl (fun ms r => ms.eraseIdx r.1) p.inflight := by
  induction reports generalizing p with
  | nil => exact ⟨SameLoop.refl p, rfl⟩
  | cons r reports ih =>
    obtain ⟨hframe, hinflight⟩ := report_frame H st hs r
    have hs' : (p.step H st (.report r.1 r.2)).sending := by rwa [hframe.sending]
    obtain ⟨hrest, hqueue⟩ := ih hs'
    rw [hinflight] at hqueue
    exact ⟨hframe.trans hrest, hqueue⟩

theorem length_erased (reports : List Report) (ms : List Delivery) :
    (reports.foldl (fun ms r => ms.eraseIdx r.1) ms).length ≤ ms.length := by
  induction reports generalizing ms with
  | nil => exact le_rfl
  | cons r reports ih => exact (ih _).trans (List.length_eraseIdx_le _ _)

/-- The queue does not grow while `_enqueue` polls. -/
theorem length_serviced (H : Host) (st : IngestSettings) (hs : p.sending) (reports : List Report) :
    (p.serviced H st reports).inflight.length ≤ p.inflight.length := by
  rw [(serviced_frame H st hs reports).2]
  exact length_erased reports p.inflight

/-! ## The loop -/

/-- **What `_enqueue` does**: it hands the message over at the first attempt that finds room, or, with
the queue full at every attempt, gives up. -/
theorem enqueue_spec (limit : ℕ) (p : Proc) (polls : List (List Report)) :
    (∃ k ≤ polls.length, (∀ j < k, (p.serviced H st (polls.take j).flatten).full limit) ∧
      (p.serviced H st (polls.take k).flatten).full limit = false ∧
      p.enqueue H st limit polls = (p.serviced H st (polls.take k).flatten).step H st .call) ∨
    (∀ j ≤ polls.length, (p.serviced H st (polls.take j).flatten).full limit) ∧
      p.enqueue H st limit polls = (p.serviced H st polls.flatten).step H st .raise := by
  induction polls generalizing p with
  | nil =>
    rw [enqueue]
    by_cases hfull : p.full limit = true
    · right
      rw [if_pos hfull]
      exact ⟨fun j _ => by simpa [serviced, reportActs] using hfull, rfl⟩
    · left
      rw [if_neg hfull]
      have hroom : (p.serviced H st ([] : List (List Report)).flatten).full limit = false := by
        simpa [serviced, reportActs] using hfull
      exact ⟨0, le_rfl, fun j hj => absurd hj (by omega), hroom, rfl⟩
  | cons reports polls ih =>
    have hnext : ∀ j, p.serviced H st ((reports :: polls).take (j + 1)).flatten =
        (p.serviced H st reports).serviced H st (polls.take j).flatten := by
      intro j
      rw [List.take_succ_cons, List.flatten_cons, serviced_append]
    rw [enqueue]
    by_cases hfull : p.full limit = true
    · rw [if_pos hfull]
      -- the first attempt fails, and the loop goes on after its poll
      have hfirst : ∀ j, (∀ i, j = i + 1 →
            ((p.serviced H st reports).serviced H st (polls.take i).flatten).full limit) →
          (p.serviced H st ((reports :: polls).take j).flatten).full limit := by
        intro j hj
        cases j with
        | zero => simpa [serviced, reportActs] using hfull
        | succ i =>
          rw [hnext]
          exact hj i rfl
      rcases ih (p.serviced H st reports) with ⟨k, hk, hbefore, hroom, heq⟩ | ⟨hall, heq⟩
      · left
        refine ⟨k + 1, ?_, fun j hj => hfirst j fun i hi => hbefore i (by omega), ?_, ?_⟩
        · rw [List.length_cons]
          omega
        · rwa [hnext]
        · rwa [hnext]
      · right
        refine ⟨fun j hj => hfirst j fun i hi => hall i ?_, ?_⟩
        · rw [List.length_cons] at hj
          omega
        · rwa [List.flatten_cons, serviced_append]
    · left
      rw [if_neg hfull]
      have hroom : (p.serviced H st ((reports :: polls).take 0).flatten).full limit = false := by
        simpa [serviced, reportActs] using hfull
      exact ⟨0, Nat.zero_le _, fun j hj => absurd hj (by omega), hroom, rfl⟩

theorem enqueue_eq (limit : ℕ) (p : Proc) (polls : List (List Report)) :
    p.enqueue H st limit polls = Trace.run (step H st) p (p.enqueueActs H st limit polls) := by
  induction polls generalizing p with
  | nil =>
    rw [enqueue, enqueueActs]
    split <;> rfl
  | cons reports polls ih =>
    rw [enqueue, enqueueActs]
    split
    · rw [ih, Trace.run_append]
      rfl
    · rfl

/-- **A step of the bounded producer is a run of the process.** -/
theorem bounded_eq (p : Proc) (a : BoundedAct) :
    p.boundedStep H st limit a = Trace.run (step H st) p (p.boundedActs H st limit a) := by
  cases a with
  | enqueue polls =>
    rw [boundedStep, boundedActs]
    split
    · exact enqueue_eq limit p polls
    · rfl
  | other a =>
    rw [boundedStep, boundedActs]
    split <;> rfl

end Proc

end BlueskyTrends
