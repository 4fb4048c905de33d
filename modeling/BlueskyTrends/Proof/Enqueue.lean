import BlueskyTrends.Ingest.Producer
import BlueskyTrends.Proof.Cursor

/-!
# Backpressure

With a full queue `_enqueue` polls and tries again. What it leaves behind is one of two things: the
message is in the queue, once, or the loop is left with nothing sent.

* `enqueue_gives_up_iff`: it gives up exactly when the queue is full and its polls service nothing.
* `bounded_run`: the queue never holds more than its limit, and what a save passes is acked.
-/

namespace BlueskyTrends

namespace Proc

variable {H : Host} {st : IngestSettings} {limit : ℕ} {p : Proc} {a : BoundedAct}

/-! ## One message -/

/-- A call that goes through `_enqueue` holds one message. -/
theorem call_sending (hs : p.sending) : ∃ c rest d, p.todo = c :: rest ∧
    p.step H st .call = { p with todo := rest, inflight := p.inflight ++ [d] } ∧ d.event = p.current := by
  obtain ⟨c, rest, hp, ⟨m, t, rfl⟩ | ⟨raw, error, topic, rfl⟩⟩ := sending_iff.1 hs
  · refine ⟨_, rest, ⟨p.current, some t⟩, hp, ?_, rfl⟩
    unfold step
    rw [hp]
    rfl
  · refine ⟨_, rest, ⟨p.current, none⟩, hp, ?_, rfl⟩
    unfold step
    rw [hp]
    rfl

theorem raise_sending (H : Host) (st : IngestSettings) (hs : p.sending) (hd : p.draining = false) :
    p.step H st .raise = p.drain := by
  obtain ⟨c, rest, hp, -⟩ := sending_iff.1 hs
  unfold step
  rw [hp]
  simp only [hd, Bool.false_eq_true, if_false]

/-- Messages that are in place are taken out. -/
theorem length_erased_eq {reports : List Report} {ms : List Delivery}
    (h : ms.length ≤ (reports.foldl (fun ms r => ms.eraseIdx r.1) ms).length) :
    ∀ r ∈ reports, ms.length ≤ r.1 := by
  induction reports generalizing ms with
  | nil => simp
  | cons r reports ih =>
    have hrest := length_erased reports (ms.eraseIdx r.1)
    have hfirst : ms.length ≤ r.1 := by
      by_contra hlt
      have hlen : (ms.eraseIdx r.1).length = ms.length - 1 := List.length_eraseIdx_of_lt (by omega)
      rw [List.foldl_cons] at h
      omega
    have herase : ms.eraseIdx r.1 = ms := List.eraseIdx_of_length_le hfirst
    intro x hx
    rcases List.mem_cons.1 hx with rfl | hx
    · exact hfirst
    · rw [List.foldl_cons, herase] at h
      exact ih h x hx

/-- Reports of messages that are not there do nothing. -/
theorem serviced_nothing (H : Host) (st : IngestSettings) (hs : p.sending) {reports : List Report}
    (h : ∀ r ∈ reports, p.inflight.length ≤ r.1) : p.serviced H st reports = p := by
  obtain ⟨c, rest, hp, -⟩ := sending_iff.1 hs
  induction reports with
  | nil => rfl
  | cons r reports ih =>
    have hr := h r List.mem_cons_self
    have hstay : p.step H st (.report r.1 r.2) = p := by
      rw [step_report_cons hp, List.getElem?_eq_none hr]
      rfl
    have hrest := ih fun x hx => h x (List.mem_cons_of_mem _ hx)
    unfold serviced reportActs at hrest ⊢
    rw [List.map_cons, Trace.run_cons, hstay, hrest]

/-- **It gives up exactly when** the queue is full and no poll services a report. Then nothing has
changed but that the loop is left; otherwise the queue holds the message, once, after those that no
poll took out. -/
theorem enqueue_gives_up_iff (H : Host) (st : IngestSettings) (hs : p.sending)
    (hd : p.draining = false) (hle : p.inflight.length ≤ limit) (polls : List (List Report)) :
    let p' := p.enqueue H st limit polls
    (p'.draining = true ↔ p.inflight.length = limit ∧ ∀ r ∈ polls.flatten, limit ≤ r.1) ∧
      (p'.draining = true → p' = p.drain) ∧
      (p'.draining = false → ∃ c reports d, p.todo = c :: p'.todo ∧ reports <+: polls.flatten ∧
        d.event = p.current ∧
        p'.inflight = reports.foldl (fun ms r => ms.eraseIdx r.1) p.inflight ++ [d] ∧
        p'.inflight.length ≤ limit) := by
  intro p'
  have hfull : ∀ q : Proc, q.full limit = true ↔ limit ≤ q.inflight.length := fun q => by simp [full]
  rcases enqueue_spec limit p polls with ⟨k, hk, hbefore, hroom, heq⟩ | ⟨hall, heq⟩
  · -- sent at an attempt that found room
    obtain ⟨hframe, hqueue⟩ := serviced_frame H st hs (polls.take k).flatten
    have hsq : (p.serviced H st (polls.take k).flatten).sending := by rwa [hframe.sending]
    obtain ⟨c, rest, d, htodo, hcall, hevent⟩ := call_sending (H := H) hsq
    have heq' : p' = _ := heq.trans hcall
    have hdrain : p'.draining = false := by
      rw [heq']
      exact hframe.draining.trans hd
    have hlt : (p.serviced H st (polls.take k).flatten).inflight.length < limit := by
      by_contra hge
      rw [(hfull _).2 (by omega)] at hroom
      cases hroom
    have hstart : (polls.take k).flatten <+: polls.flatten := by
      refine ⟨(polls.drop k).flatten, ?_⟩
      rw [← List.flatten_append, List.take_append_drop]
    refine ⟨⟨fun h => ?_, fun h => ?_⟩, fun h => ?_, fun _ => ?_⟩
    · rw [hdrain] at h
      cases h
    · -- no poll can have made room
      obtain ⟨hlen, hreports⟩ := h
      have hnowhere : ∀ r ∈ (polls.take k).flatten, p.inflight.length ≤ r.1 := by
        intro r hr
        rw [hlen]
        exact hreports r (hstart.subset hr)
      have hnothing := serviced_nothing H st hs hnowhere
      rw [hnothing] at hlt
      omega
    · rw [hdrain] at h
      cases h
    · refine ⟨c, (polls.take k).flatten, d, ?_, hstart, ?_, ?_, ?_⟩
      · rw [← hframe.todo, htodo, heq']
      · rw [hevent, current, current, hframe.seen]
      · rw [heq', hqueue]
      · rw [heq', List.length_append, List.length_singleton]
        omega
  · -- full at every attempt, the last one after all the reports
    have hlast := hall polls.length le_rfl
    rw [List.take_length, hfull, (serviced_frame H st hs polls.flatten).2] at hlast
    have hshrinks := length_erased polls.flatten p.inflight
    have hlen : p.inflight.length = limit := by omega
    have hreports : ∀ r ∈ polls.flatten, limit ≤ r.1 := by
      intro r hr
      rw [← hlen]
      exact length_erased_eq (by omega) r hr
    have hnowhere : ∀ r ∈ polls.flatten, p.inflight.length ≤ r.1 := by
      intro r hr
      rw [hlen]
      exact hreports r hr
    have hnothing := serviced_nothing H st hs hnowhere
    have heq' : p' = p.drain := by
      rw [← raise_sending H st hs hd]
      rwa [hnothing] at heq
    refine ⟨⟨fun _ => ⟨hlen, hreports⟩, fun _ => ?_⟩, fun _ => heq', fun h => ?_⟩
    · rw [heq']
      rfl
    · rw [heq'] at h
      cases h

/-- The second of two posts is about to be sent, the first is held. -/
def secondPost : Proc := Trace.run (step asciiHost everyAck) (init 0) ((twoPosts 10 20).take 8)

/-- A queue of one: without a report in five polls the post is given up, with one in the third it is
sent. -/
theorem enqueue_gives_up_second :
    (secondPost.enqueue asciiHost everyAck 1 [[], [], [], [], []]).draining = true ∧
      (secondPost.enqueue asciiHost everyAck 1 [[], [], [(0, true)], [], []]).draining = false := by
  have hone : secondPost.inflight.length ≤ 1 := by decide
  constructor
  · have hspec := (enqueue_gives_up_iff asciiHost everyAck (by decide) (by decide) hone
      [[], [], [], [], []]).1
    exact hspec.2 (by decide)
  · have hspec := (enqueue_gives_up_iff asciiHost everyAck (by decide) (by decide) hone
      [[], [], [(0, true)], [], []]).1
    rw [← Bool.not_eq_true, hspec]
    decide

/-! ## Runs -/

theorem inflight_raise (p : Proc) : (p.step H st .raise).inflight = p.inflight := by
  have hm := move_step H st p .raise
  generalize p.step H st .raise = p' at hm ⊢
  cases hm with
  | stay | drain | abandon => rfl

theorem length_enqueue (hs : p.sending) (hle : p.inflight.length ≤ limit) (polls : List (List Report)) :
    (p.enqueue H st limit polls).inflight.length ≤ limit := by
  rcases enqueue_spec limit p polls with ⟨k, hk, -, hroom, heq⟩ | ⟨-, heq⟩
  · obtain ⟨hframe, -⟩ := serviced_frame H st hs (polls.take k).flatten
    have hsq : (p.serviced H st (polls.take k).flatten).sending := by rwa [hframe.sending]
    obtain ⟨c, rest, d, -, hcall, -⟩ := call_sending (H := H) hsq
    have hlt : (p.serviced H st (polls.take k).flatten).inflight.length < limit := by
      simpa [full] using hroom
    rw [heq, hcall, List.length_append, List.length_singleton]
    omega
  · have hshrinks := length_serviced H st hs polls.flatten
    rw [heq, inflight_raise]
    omega

/-- Outside `_enqueue` no message is held. -/
theorem length_outside {a : Act} (ho : p.outside a) : (p.step H st a).inflight.length ≤ p.inflight.length := by
  have hm := move_step H st p a
  generalize p.step H st a = p' at hm ⊢
  have hquiet : p.sending → a ≠ .call := by
    rintro hs rfl
    rw [outside, hs] at ho
    cases ho
  cases hm with
  | produce ht => exact absurd rfl (hquiet (sending_iff.2 ⟨_, _, ht, Or.inl ⟨_, _, rfl⟩⟩))
  | produceDlq ht => exact absurd rfl (hquiet (sending_iff.2 ⟨_, _, ht, Or.inr ⟨_, _, _, rfl⟩⟩))
  | report => exact List.length_eraseIdx_le _ _
  | stay | recv | recvFails | drain | abandon | register | quiet => exact le_rfl

/-- **The queue keeps to its limit.** -/
theorem length_bounded (hle : p.inflight.length ≤ limit) (a : BoundedAct) :
    (p.boundedStep H st limit a).inflight.length ≤ limit := by
  cases a with
  | enqueue polls =>
    rw [boundedStep]
    split
    · rename_i h
      rw [Bool.and_eq_true] at h
      exact length_enqueue h.1 hle polls
    · exact hle
  | other a =>
    rw [boundedStep]
    split
    · rename_i h
      exact (length_outside h).trans hle
    · exact hle

/-- A registration is made outside `_enqueue`. -/
def BoundedFresh (p : Proc) : BoundedAct → Prop
  | .enqueue _ => True
  | .other a => p.RegistersFresh a

instance (p : Proc) : ∀ a, Decidable (p.BoundedFresh a)
  | .enqueue _ => isTrue trivial
  | .other a => inferInstanceAs (Decidable (p.RegistersFresh a))

/-- No step inside `_enqueue` is a registration. -/
theorem fresh_sending (hs : p.sending) (a : Act) : p.RegistersFresh a := by
  obtain ⟨c, rest, hp, ⟨m, t, rfl⟩ | ⟨raw, error, topic, rfl⟩⟩ := sending_iff.1 hs
  · unfold RegistersFresh
    rw [hp]
    split
    · rename_i h
      cases h
    · trivial
  · unfold RegistersFresh
    rw [hp]
    split
    · rename_i h
      cases h
    · trivial

theorem tracked_serviced (hs : p.sending) (h : p.Tracked) (reports : List Report) :
    (p.serviced H st reports).Tracked := by
  induction reports generalizing p with
  | nil => exact h
  | cons r reports ih =>
    obtain ⟨hframe, -⟩ := report_frame H st hs r
    have hs' : (p.step H st (.report r.1 r.2)).sending := by rwa [hframe.sending]
    exact ih hs' (tracked_step H st (fresh_sending hs _) h)

theorem tracked_bounded (ha : p.BoundedFresh a) (h : p.Tracked) : (p.boundedStep H st limit a).Tracked := by
  cases a with
  | enqueue polls =>
    rw [boundedStep]
    split
    · rename_i hsending
      rw [Bool.and_eq_true] at hsending
      have hlast : ∀ reports b, ((p.serviced H st reports).step H st b).Tracked := by
        intro reports b
        have hs : (p.serviced H st reports).sending := by
          rw [(serviced_frame H st hsending.1 reports).1.sending]
          exact hsending.1
        exact tracked_step H st (fresh_sending hs b) (tracked_serviced hsending.1 h reports)
      rcases enqueue_spec limit p polls with ⟨k, -, -, -, heq⟩ | ⟨-, heq⟩
      · rw [heq]
        exact hlast _ _
      · rw [heq]
        exact hlast _ _
    · exact h
  | other a =>
    rw [boundedStep]
    split
    · exact tracked_step H st ha h
    · exact h

/-- **Backpressure is safe.** In every run of the process over a bounded queue, the queue keeps to its
limit, the process is in a state it could reach with a queue without one, and, where the
registrations are fresh, a save passes no event that is not acked: also not one `_enqueue` gave up
on. -/
theorem bounded_run (H : Host) (st : IngestSettings) (limit : ℕ) (now : ℤ) (as : List BoundedAct) :
    let p := Trace.run (boundedStep H st limit) (init now) as
    p.inflight.length ≤ limit ∧ (∃ bs, p = Trace.run (step H st) (init now) bs) ∧
      (Trace.Along (boundedStep H st limit) BoundedFresh (init now) as →
        ∀ a v, p.saves st a = some v → ∀ n c, (n, c) ∈ p.registered → c ≤ v → n ∈ p.acked) := by
  intro p
  have hbound : p.inflight.length ≤ limit :=
    Trace.run_inv (I := fun p : Proc => p.inflight.length ≤ limit)
      (fun _ a h => length_bounded h a) (Nat.zero_le _) as
  have hruns : ∃ bs, p = Trace.run (step H st) (init now) bs := by
    refine Trace.run_inv (I := fun p : Proc => ∃ bs, p = Trace.run (step H st) (init now) bs) ?_ ⟨[], rfl⟩ as
    rintro _ a ⟨bs, rfl⟩
    refine ⟨bs ++ boundedActs H st limit (Trace.run (step H st) (init now) bs) a, ?_⟩
    rw [bounded_eq, Trace.run_append]
  refine ⟨hbound, hruns, fun hfresh a v hv n c hreg hcv => ?_⟩
  have htracked : p.Tracked :=
    Trace.run_inv_along (fun _ _ ha h => tracked_bounded ha h) (tracked_init now) hfresh
  obtain ⟨hsafe, hsaved⟩ := saves_eq hv
  by_contra hn
  exact hsaved (htracked.above _ hreg hn v hsafe hcv)

/-- Over a queue of one message `_enqueue` gives up on the second of two posts; the report of the first comes while
the producer is flushed. -/
def gaveUp : List BoundedAct :=
  [.other (.recv (postEvent 10 (.str "one")) 0), .other .call, .enqueue [[], [], [], [], []], .other .call, .other .call,
    .other .call, .other (.recv (postEvent 20 (.str "two")) 1), .other .call, .enqueue [[], [], [], [], []],
    .other (.report 0 true), .other .call]

/-- The last save is that of the first post: it does not pass the second. -/
theorem bounded_run_gaveUp :
    let p := Trace.run (boundedStep asciiHost everyAck 1) (init 0) gaveUp
    p.draining = true ∧ (1, 20) ∈ p.registered ∧ 1 ∉ p.acked ∧ p.saves everyAck .call = some 10 ∧
      ∀ n c, (n, c) ∈ p.registered → c ≤ 10 → n ∈ p.acked := by
  intro p
  have hsaves : p.saves everyAck .call = some 10 := by decide
  have hfresh : Trace.Along (boundedStep asciiHost everyAck 1) BoundedFresh (init 0) gaveUp := by decide
  exact ⟨by decide, by decide, by decide, hsaves,
    (bounded_run asciiHost everyAck 1 0 gaveUp).2.2 hfresh .call 10 hsaves⟩

end Proc

end BlueskyTrends
