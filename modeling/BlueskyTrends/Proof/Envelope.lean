import BlueskyTrends.Proof.Cursor

/-!
# Dead letters and the saved cursor

Dead letters are not registered with the checkpointer: the watermark passes them with the
first acked event after them.

* `saves_envelopes`: on a stream of increasing `time_us`, a saved value covers only dead letters
  whose envelope is acked, in every run where no report moves the watermark past another one.
-/

namespace BlueskyTrends

open Checkpointer

variable {H : Host} {st : IngestSettings} {p p' : Proc} {a : Proc.Act} {event : Val} {now v x : ℤ}

def Call.isDlq : Call → Bool
  | .produceDlq _ _ _ => true
  | _ => false

/-- The loop routes the event to `produce_dlq`. -/
def deadLettered (H : Host) (event : Val) : Bool :=
  match route H event with
  | .ok calls => calls.any Call.isDlq
  | .error _ => false

/-- A cursor the next fold takes, as a check on the pending entries. -/
theorem mem_foldable {s : Checkpointer} : x ∈ s.foldable ↔
    x ∈ s.pendingAcks.keys ∧ ∀ d ∈ s.pendingAcks.keys, d ≤ x → s.pendingAcks.lookup d = some true := by
  simp only [foldable, Frontier.Covered, Set.mem_ofPred_eq, mem_pending, marked, AList.mem_keys]

instance (s : Checkpointer) (x : ℤ) : Decidable (x ∈ s.foldable) := decidable_of_iff' _ mem_foldable

namespace Proc

/-- The dead letters received with `time_us` up to `x` have their envelope acked. -/
def EnvelopesAcked (H : Host) (p : Proc) (x : ℤ) : Prop :=
  ∀ n, ∀ event ∈ p.seen[n]?, deadLettered H event → ∀ t ∈ timeUs event, t ≤ x → n ∈ p.acked

instance (H : Host) (p : Proc) (x : ℤ) : Decidable (EnvelopesAcked H p x) :=
  decidable_of_iff (∀ n < p.seen.length, ∀ event ∈ p.seen[n]?, deadLettered H event →
      ∀ t ∈ timeUs event, t ≤ x → n ∈ p.acked) <| by
    refine ⟨fun h n event he => h n ?_ event he, fun h n _ => h n⟩
    exact (List.getElem?_eq_some_iff.1 he).1

/-- The event received has an integer `time_us`, above those received before. -/
def Ascending (p : Proc) : Act → Prop
  | .recv event _ => match timeUs event with
    | some t => ∀ e ∈ p.seen, ∀ t' ∈ timeUs e, t' < t
    | none => False
  | _ => True

/-- A report that moves the watermark to `x` finds the envelopes up to `x` acked. -/
def EnvelopesFirst (H : Host) (p : Proc) : Act → Prop
  | .report i true => ∀ d ∈ p.inflight[i]?, ∀ c ∈ d.cursor, ∀ x ∈ p.cp.pendingAcks.keys,
      x ∈ (p.cp.mark c).foldable → p.EnvelopesAcked H x
  | _ => True

instance (p : Proc) (a : Act) : Decidable (p.Ascending a) := by
  unfold Ascending
  split
  · split <;> infer_instance
  · infer_instance

instance (p : Proc) (a : Act) : Decidable (p.EnvelopesFirst H a) := by
  unfold EnvelopesFirst
  split <;> infer_instance

/-- Registered cursors are those of events received. -/
structure Timed (p : Proc) : Prop where
  todo : ∀ c, .register c ∈ p.todo → ∃ e ∈ p.seen, timeUs e = some c
  pending : ∀ c ∈ p.cp.pendingAcks, ∃ e ∈ p.seen, timeUs e = some c
  safe : ∀ c, p.cp.safeCursor = some c → ∃ e ∈ p.seen, timeUs e = some c

theorem timed_init (now : ℤ) : (init now).Timed where
  todo := by simp [init]
  pending := by simp [init, Checkpointer.init]
  safe := by simp [init, Checkpointer.init]

namespace Timed

/-- A step that makes no call other than those left, and no new entry. -/
theorem frame (h : p.Timed) (ht : ∀ c ∈ p'.todo, c ∈ p.todo ∨ ∀ x, c ≠ .register x)
    (hs : p.seen ⊆ p'.seen) (hp : ∀ c ∈ p'.cp.pendingAcks, c ∈ p.cp.pendingAcks)
    (hc : ∀ c, p'.cp.safeCursor = some c → p.cp.safeCursor = some c ∨ c ∈ p.cp.pendingAcks) :
    p'.Timed := by
  have grow : ∀ {c : ℤ}, (∃ e ∈ p.seen, timeUs e = some c) → ∃ e ∈ p'.seen, timeUs e = some c :=
    fun ⟨e, he, ht⟩ => ⟨e, hs he, ht⟩
  refine ⟨fun c hc => ?_, fun c hc => grow (h.pending c (hp c hc)), fun c hsafe => ?_⟩
  · rcases ht _ hc with hc | hne
    · exact grow (h.todo c hc)
    · exact absurd rfl (hne c)
  · rcases hc c hsafe with hsafe | hpend
    · exact grow (h.safe c hsafe)
    · exact grow (h.pending c hpend)

theorem recv (h : p.Timed) {calls : List Call} (hc : ∀ c, .register c ∈ calls → timeUs event = some c)
    (b : Bool) :
    Timed { p with seen := p.seen ++ [event], todo := calls, draining := b } where
  todo := fun c hm => ⟨event, by simp, hc c hm⟩
  pending := fun c hp => (h.pending c hp).imp fun e he => ⟨List.mem_append_left _ he.1, he.2⟩
  safe := fun c hs => (h.safe c hs).imp fun e he => ⟨List.mem_append_left _ he.1, he.2⟩

theorem register (h : p.Timed) {c : ℤ} {rest : List Call} (ht : p.todo = .register c :: rest)
    (reg : List (ℕ × ℤ)) : Timed { p with todo := rest, cp := p.cp.register c, registered := reg } where
  todo := fun x hx => h.todo x (by rw [ht]; exact List.mem_cons_of_mem _ hx)
  pending := fun x hx => by
    rcases mem_register.1 hx with rfl | hx
    · exact h.todo x (by rw [ht]; exact List.mem_cons_self)
    · exact h.pending x hx
  safe := fun x hx => h.safe x (by simpa using hx)

end Timed

/-- A report leaves the entries among those there were, and the watermark at one of them or
where it was. -/
theorem deliver_cp (p : Proc) (d : Delivery) (success : Bool) (l : List Delivery) :
    (∀ c ∈ (deliver { p with inflight := l } d success).cp.pendingAcks, c ∈ p.cp.pendingAcks) ∧
      ∀ w, (deliver { p with inflight := l } d success).cp.safeCursor = some w →
        p.cp.safeCursor = some w ∨
          success = true ∧ ∃ c, d.cursor = some c ∧ w ∈ p.cp.pendingAcks ∧ w ∈ (p.cp.mark c).foldable := by
  unfold deliver
  cases hc : d.cursor with
  | none => exact ⟨fun c hc => hc, fun w hw => Or.inl hw⟩
  | some c =>
    cases success with
    | false => exact ⟨fun c hc => hc, fun w hw => Or.inl hw⟩
    | true =>
      have hf := p.cp.onAck_folded c
      refine ⟨fun x hx => ((hf.mem x).1 hx).1, fun w hw => ?_⟩
      rcases hf.safe with ⟨-, hs⟩ | ⟨g, hg, hs⟩
      · exact Or.inl (hs ▸ hw)
      · obtain rfl : g = w := Option.some.inj (hs.symm.trans hw)
        exact Or.inr ⟨rfl, c, rfl, (hf.acked g hg.1).1, hg.1⟩

theorem timed_move (h : p.Timed) (hm : Move H p a p') : p'.Timed := by
  cases hm with
  | stay => exact h
  | recv _ hc => exact h.recv (registers_own (consumeCalls_ok hc)) p.draining
  | recvFails => exact h.recv (by simp [drainCalls]) true
  | drain =>
    exact h.frame (by simp [Proc.drain, drainCalls]) (fun _ he => he) (fun _ hc => hc) fun _ => Or.inl
  | abandon => exact h.frame (by simp) (fun _ he => he) (fun _ hc => hc) fun _ => Or.inl
  | register ht => exact h.register ht _
  | produce ht | produceDlq ht =>
    refine h.frame (fun c hc => Or.inl ?_) (fun _ he => he) (fun _ hc => hc) fun _ => Or.inl
    rw [ht]; exact List.mem_cons_of_mem _ hc
  | quiet ht _ hs =>
    refine h.frame (fun c hc => Or.inl ?_) (fun _ he => he) (fun c hc => hs.pending ▸ hc)
      fun c hc => Or.inl ?_
    · rw [ht]; exact List.mem_cons_of_mem _ hc
    · exact hs.safe ▸ hc
  | report _ _ hi =>
    obtain ⟨hp, hw⟩ := deliver_cp p _ _ _
    refine h.frame (fun c hc => Or.inl hc) (fun _ he => he) hp fun c hc => ?_
    rcases hw c hc with hc | ⟨_, _, _, hm, _⟩
    · exact Or.inl hc
    · exact Or.inr hm

/-- The dead letters up to the watermark have their envelope acked. -/
structure Enveloped (H : Host) (p : Proc) : Prop where
  timed : p.Timed
  covered : ∀ s, p.cp.safeCursor = some s → p.EnvelopesAcked H s

theorem Enveloped.frame (h : p.Enveloped H) (ht : p'.Timed) (hs : p'.seen = p.seen)
    (hc : p'.cp.safeCursor = p.cp.safeCursor) (ha : p'.acked = p.acked) : p'.Enveloped H where
  timed := ht
  covered := fun s hsafe n e he hd t htime hle => by
    rw [ha]
    rw [hs] at he
    rw [hc] at hsafe
    exact h.covered s hsafe n e he hd t htime hle

/-- An event above all those received is above the watermark. -/
theorem Enveloped.recv (h : p.Enveloped H) (hasc : p.Ascending (.recv event now)) {calls : List Call}
    {b : Bool} (ht : Timed { p with seen := p.seen ++ [event], todo := calls, draining := b }) :
    Enveloped H { p with seen := p.seen ++ [event], todo := calls, draining := b } where
  timed := ht
  covered := fun s hsafe n e he hd t htime hle => by
    rw [List.getElem?_append] at he
    split at he
    · exact h.covered s hsafe n e he hd t htime hle
    -- the new event: the watermark is the cursor of an older one, so below it
    · obtain ⟨e', he', hs⟩ := h.timed.safe s hsafe
      have hev : e = event := by
        have := List.mem_of_getElem? he
        simpa using this
      subst hev
      simp only [Ascending, show timeUs e = some t from htime] at hasc
      exact absurd (hasc e' he' s hs) (not_lt.2 hle)

theorem enveloped_step (H : Host) (st : IngestSettings) (ha : p.Ascending a ∧ p.EnvelopesFirst H a)
    (h : p.Enveloped H) :
    (p.step H st a).Enveloped H := by
  have hm := move_step H st p a
  have ht := timed_move h.timed hm
  generalize p.step H st a = p' at hm ht ⊢
  cases hm with
  | stay => exact h
  | recv => exact h.recv ha.1 ht
  | recvFails => exact h.recv ha.1 ht
  | drain | abandon | produce | produceDlq => exact h.frame ht rfl rfl rfl
  | register => exact h.frame ht rfl (register_safe _ _) rfl
  | quiet _ _ hs => exact h.frame ht rfl hs.safe rfl
  | @report i d success _ _ _ _ hi =>
    obtain ⟨-, hw⟩ := deliver_cp p d success (p.inflight.eraseIdx i)
    have hgrow : ∀ n ∈ p.acked,
        n ∈ (deliver { p with inflight := p.inflight.eraseIdx i } d success).acked := by
      intro n hn
      simp only [deliver]
      split
      · exact List.mem_append_left _ hn
      · exact hn
    refine ⟨ht, fun s hsafe n e he hd t htime hle => hgrow n ?_⟩
    -- the watermark is where it was, or at a cursor this report has folded
    rcases hw s hsafe with hs | ⟨rfl, c, hc, hmem, hfold⟩
    · exact h.covered s hs n e he hd t htime hle
    · exact ha.2 d hi c hc s (AList.mem_keys.1 hmem) hfold n e he hd t htime hle

theorem enveloped_init (H : Host) (now : ℤ) : (init now).Enveloped H where
  timed := timed_init now
  covered := by simp [init, Checkpointer.init]

end Proc

/-- **A saved cursor passes no dead letter without an acked envelope**, when no report moves the
watermark past one. -/
theorem saves_envelopes {as : List Proc.Act}
    (hok : Trace.Along (Proc.step H st) (fun p a => p.Ascending a ∧ p.EnvelopesFirst H a) (.init now) as)
    (hv : (Trace.run (Proc.step H st) (.init now) as).saves st a = some v) :
    (Trace.run (Proc.step H st) (.init now) as).EnvelopesAcked H v := by
  have h := Trace.run_inv_along (fun _ _ ha h => Proc.enveloped_step H st ha h)
    (Proc.enveloped_init H now) hok
  exact h.covered v (Proc.saves_eq hv).1

/-- A post without `text`. -/
def noText (t : ℤ) : Val :=
  .dict [("did", .str "did:plc:author123"), ("time_us", .int t), ("kind", .str "commit"),
  ("commit", .dict [("operation", .str "create"), ("collection", .str "app.bsky.feed.post"),
    ("rkey", .str "3kpostrkey"), ("cid", .str "bafypost"),
    ("record", .dict [("createdAt", .str "2024-01-01T00:00:00.000Z")])])]

/-- A malformed post, then a well-formed one; the reports arrive in the order of the second poll. -/
def noTextThenPost (reports : List Proc.Act) : List Proc.Act :=
  [.recv (noText 1) 0, .call, .call, .call, .call,
    .recv (postEvent 2 (.str "two")) 1, .call, .call, .call] ++
    reports ++ [.call]

theorem saves_envelopes_acked :
    (Trace.run (Proc.step asciiHost everyAck) (.init 0)
        (noTextThenPost [.report 0 true, .report 0 true])).saves everyAck .call = some 2 ∧
      (Trace.run (Proc.step asciiHost everyAck) (.init 0)
        (noTextThenPost [.report 0 true, .report 0 true])).EnvelopesAcked asciiHost 2 := by
  have hv : (Trace.run (Proc.step asciiHost everyAck) (.init 0)
      (noTextThenPost [.report 0 true, .report 0 true])).saves everyAck .call = some 2 := by decide
  exact ⟨hv, saves_envelopes (by decide) hv⟩

/-- **The envelope is lost**: its delivery fails, the next post is acked and its cursor saved. -/
theorem failed_envelope_passed :
    (Trace.run (Proc.step asciiHost everyAck) (.init 0)
        (noTextThenPost [.report 0 false, .report 0 true])).saves everyAck .call = some 2 ∧
      ¬ (Trace.run (Proc.step asciiHost everyAck) (.init 0)
        (noTextThenPost [.report 0 false, .report 0 true])).EnvelopesAcked asciiHost 2 :=
  ⟨by decide, by decide⟩

end BlueskyTrends
