import BlueskyTrends.Proof.Cursor

/-!
# When the saved cursor moves forward

A fold moves the watermark to the greatest cursor it takes, whatever the watermark was. On a stream whose
cursors do not decrease it never moves back; on any other one some run of the process moves it back.

* `inOrder_step`: what a step keeps on a stream in order.
* `eager_run`: the run in which each event is acked before the next one.
* `saves_forward_iff`: the saved cursor never moves back, on any run over a stream, exactly when the cursors
  registered on it do not decrease.
-/

namespace BlueskyTrends

open Checkpointer

variable {H : Host} {st : IngestSettings}

/-- The cursor a call registers. -/
def Call.registers : Call → Option ℤ
  | .register c => some c
  | _ => none

/-- The cursors the loop registers on a stream, up to an event on which it raises. -/
def streamCursors (H : Host) : List Val → List ℤ
  | [] => []
  | event :: events => match route H event with
    | .error _ => []
    | .ok calls => calls.filterMap Call.registers ++ streamCursors H events

theorem streamCursors_grows {xs ys : List Val} (h : xs <+: ys) : streamCursors H xs <+: streamCursors H ys := by
  induction xs generalizing ys with
  | nil => exact List.nil_prefix
  | cons event xs ih =>
    obtain ⟨zs, rfl⟩ := h
    rw [List.cons_append, streamCursors, streamCursors]
    cases route H event with
    | error e => exact List.nil_prefix
    | ok calls =>
      simp only
      rw [List.prefix_append_right_inj]
      exact ih (List.prefix_append xs zs)

theorem streamCursors_snoc {xs : List Val} {event : Val} {calls : List Call}
    (hxs : ∀ x ∈ xs, ∃ calls, route H x = .ok calls) (h : route H event = .ok calls) :
    streamCursors H (xs ++ [event]) = streamCursors H xs ++ calls.filterMap Call.registers := by
  induction xs with
  | nil => simp [streamCursors, h]
  | cons x xs ih =>
    obtain ⟨sent, hsent⟩ := hxs x List.mem_cons_self
    rw [List.cons_append, streamCursors, streamCursors, hsent]
    simp only
    rw [ih fun y hy => hxs y (List.mem_cons_of_mem _ hy), List.append_assoc]

namespace Proc

variable {p p' : Proc} {a : Act} {es : List Val}

/-- The step does not move the watermark back. -/
def Forward (H : Host) (st : IngestSettings) (p : Proc) (a : Act) : Prop :=
  ∀ v, p.cp.safeCursor = some v → ∃ w, (p.step H st a).cp.safeCursor = some w ∧ v ≤ w

/-- The values a run passes to `store.save`, in order. -/
def saved (H : Host) (st : IngestSettings) : Proc → List Act → List ℤ
  | _, [] => []
  | p, a :: as => (p.saves st a).toList ++ saved H st (p.step H st a) as

/-- The cursors registered, in order. -/
def cursors (p : Proc) : List ℤ := p.registered.map Prod.snd

/-! ## A stream in order -/

/-- The cursors of the checkpointer are those registered, and those it still has to fold are not below its
watermark. -/
structure InOrder (H : Host) (p : Proc) : Prop where
  handled : p.draining = false → ∀ event ∈ p.seen, ∃ calls, route H event = .ok calls
  stream : (p.cursors ++ p.todo.filterMap Call.registers).Sublist (streamCursors H p.seen)
  pending : ∀ c ∈ p.cp.pendingAcks, c ∈ p.cursors
  safe : ∀ v, p.cp.safeCursor = some v → v ∈ p.cursors
  above : ∀ c ∈ p.cp.pendingAcks, ∀ v, p.cp.safeCursor = some v → v ≤ c

theorem consumeCalls_registers {event : Val} {now : ℤ} {calls : List Call}
    (h : consumeCalls H event now = .ok calls) :
    ∃ sent, route H event = .ok sent ∧ calls.filterMap Call.registers = sent.filterMap Call.registers := by
  simp only [consumeCalls, bind, pure, Except.pure, bind_ok, Except.ok.injEq] at h
  obtain ⟨sent, hsent, rfl⟩ := h
  refine ⟨sent, hsent, ?_⟩
  rw [List.filterMap_append]
  exact List.append_nil _

theorem inOrder_init (now : ℤ) : (init now).InOrder H where
  handled := by simp [init]
  stream := List.Sublist.refl _
  pending := by simp [init, Checkpointer.init]
  safe := by simp [init, Checkpointer.init]
  above := by simp [init, Checkpointer.init]

/-- Where no pending cursor is below the watermark, a report moves it forward, if at all. -/
theorem onAck_forward {s : Checkpointer} (habove : ∀ c ∈ s.pendingAcks, ∀ v, s.safeCursor = some v → v ≤ c)
    (success : Bool) (c : ℤ) :
    (∀ d ∈ (s.onAck success c).pendingAcks, d ∈ s.pendingAcks) ∧
    (∀ v, (s.onAck success c).safeCursor = some v → s.safeCursor = some v ∨ v ∈ s.pendingAcks) ∧
    (∀ d ∈ (s.onAck success c).pendingAcks, ∀ v, (s.onAck success c).safeCursor = some v → v ≤ d) ∧
    ∀ v, s.safeCursor = some v → ∃ w, (s.onAck success c).safeCursor = some w ∧ v ≤ w := by
  cases success with
  | false => exact ⟨fun _ h => h, fun _ h => Or.inl h, habove, fun v hv => ⟨v, hv, le_rfl⟩⟩
  | true =>
    have hf := s.onAck_folded c
    have hpend : ∀ d ∈ (s.onAck true c).pendingAcks, d ∈ s.pendingAcks := fun d hd => ((hf.mem d).1 hd).1
    rcases hf.safe with ⟨-, hs⟩ | ⟨w, hw, hs⟩
    · -- nothing is folded
      refine ⟨hpend, fun v hv => Or.inl (hs ▸ hv), fun d hd v hv => ?_, fun v hv => ⟨v, hs.trans hv, le_rfl⟩⟩
      exact habove d (hpend d hd) v (hs ▸ hv)
    · have hwp : w ∈ s.pendingAcks := (hf.acked w hw.1).1
      refine ⟨hpend, fun v hv => ?_, fun d hd v hv => ?_, fun v hv => ⟨w, hs, habove w hwp v hv⟩⟩
      · obtain rfl : w = v := Option.some.inj (hs.symm.trans hv)
        exact Or.inr hwp
      · obtain rfl : w = v := Option.some.inj (hs.symm.trans hv)
        obtain ⟨hd, hdF⟩ := (hf.mem d).1 hd
        exact (not_le.1 fun hdw => hdF (hf.down d hd w hw.1 hdw)).le

namespace InOrder

/-- A step that leaves the checkpointer's cursors as they are. -/
theorem frame (h : p.InOrder H) (hc : p'.registered = p.registered) (hcp : Saved p.cp p'.cp)
    (hh : p'.draining = false → ∀ event ∈ p'.seen, ∃ calls, route H event = .ok calls)
    (hs : (p.cursors ++ p'.todo.filterMap Call.registers).Sublist (streamCursors H p'.seen)) :
    p'.InOrder H := by
  have hcur : p'.cursors = p.cursors := by rw [cursors, hc, cursors]
  refine ⟨hh, by rw [hcur]; exact hs, ?_, ?_, ?_⟩
  · rw [hcur, hcp.pending]
    exact h.pending
  · rw [hcur, hcp.safe]
    exact h.safe
  · rw [hcp.pending, hcp.safe]
    exact h.above

/-- The calls left shrink. -/
theorem tail (h : p.InOrder H) {todo : List Call}
    (ht : (todo.filterMap Call.registers).Sublist (p.todo.filterMap Call.registers)) :
    (p.cursors ++ todo.filterMap Call.registers).Sublist (streamCursors H p.seen) :=
  (ht.append_left _).trans h.stream

theorem recv (h : p.InOrder H) (hi : p.idle) {event : Val} {now : ℤ} {calls : List Call}
    (hc : consumeCalls H event now = .ok calls) :
    InOrder H { p with seen := p.seen ++ [event], todo := calls } := by
  obtain ⟨htodo, hdrain⟩ := idle_iff.1 hi
  obtain ⟨sent, hsent, hcalls⟩ := consumeCalls_registers hc
  have hall := h.handled hdrain
  refine h.frame rfl (saved_refl p.cp) (fun _ x hx => ?_) ?_
  · rcases List.mem_append.1 hx with hx | hx
    · exact hall x hx
    · rw [List.mem_singleton.1 hx]
      exact ⟨sent, hsent⟩
  · have hstream := h.stream
    simp only [htodo, List.filterMap_nil, List.append_nil] at hstream
    rw [streamCursors_snoc hall hsent, hcalls]
    exact hstream.append_right _

theorem drain (h : p.InOrder H) {seen : List Val} (hseen : p.seen <+: seen) :
    InOrder H { p with seen := seen, todo := drainCalls, draining := true } := by
  refine h.frame rfl (saved_refl p.cp) (by rintro ⟨⟩) ?_
  have hnone : drainCalls.filterMap Call.registers = [] := rfl
  have hstream : (p.cursors ++ []).Sublist (streamCursors H p.seen) :=
    ((List.nil_sublist _).append_left _).trans h.stream
  rw [hnone]
  exact hstream.trans (streamCursors_grows hseen).sublist

/-- **A registration** of a cursor not below those registered before. -/
theorem register (h : p.InOrder H) {c : ℤ} {rest : List Call} (ht : p.todo = .register c :: rest)
    (hsorted : (streamCursors H p.seen).Pairwise (· ≤ ·)) (i : ℕ) :
    InOrder H { p with
      todo := rest
      cp := p.cp.register c
      registered := p.registered ++ [(i, c)] } := by
  have hcur : cursors { p with
      todo := rest
      cp := p.cp.register c
      registered := p.registered ++ [(i, c)] } = p.cursors ++ [c] := List.map_append
  have hstream : (p.cursors ++ c :: rest.filterMap Call.registers).Sublist (streamCursors H p.seen) := by
    have := h.stream
    rwa [ht, List.filterMap_cons] at this
  have hle : ∀ d ∈ p.cursors, d ≤ c := by
    intro d hd
    exact (List.pairwise_append.1 (hsorted.sublist hstream)).2.2 d hd c List.mem_cons_self
  refine ⟨h.handled, ?_, ?_, ?_, ?_⟩
  · rw [hcur, List.append_assoc]
    exact hstream
  · intro d hd
    rw [hcur]
    rcases mem_register.1 hd with rfl | hd
    · exact List.mem_append_right _ List.mem_cons_self
    · exact List.mem_append_left _ (h.pending d hd)
  · intro v hv
    rw [hcur]
    rw [register_safe] at hv
    exact List.mem_append_left _ (h.safe v hv)
  · intro d hd v hv
    rw [register_safe] at hv
    rcases mem_register.1 hd with rfl | hd
    · exact hle v (h.safe v hv)
    · exact h.above d hd v hv

/-- **A delivery report.** -/
theorem report (h : p.InOrder H) (d : Delivery) (success : Bool) (inflight : List Delivery) :
    ({ p with inflight := inflight }.deliver d success).InOrder H ∧
      ∀ v, p.cp.safeCursor = some v →
        ∃ w, ({ p with inflight := inflight }.deliver d success).cp.safeCursor = some w ∧ v ≤ w := by
  cases hd : d.cursor with
  | none =>
    have hcp : ({ p with inflight := inflight }.deliver d success).cp = p.cp := by simp only [deliver, hd]
    rw [hcp]
    refine ⟨⟨h.handled, h.stream, ?_, ?_, ?_⟩, fun v hv => ⟨v, hv, le_rfl⟩⟩
    · rw [hcp]
      exact h.pending
    · rw [hcp]
      exact h.safe
    · rw [hcp]
      exact h.above
  | some c =>
    have hcp : ({ p with inflight := inflight }.deliver d success).cp = p.cp.onAck success c := by
      simp only [deliver, hd]
    obtain ⟨hpend, hsafe, habove, hforward⟩ := onAck_forward h.above success c
    rw [hcp]
    refine ⟨⟨h.handled, h.stream, ?_, ?_, ?_⟩, hforward⟩
    · rw [hcp]
      exact fun x hx => h.pending x (hpend x hx)
    · rw [hcp]
      intro v hv
      rcases hsafe v hv with hv | hv
      · exact h.safe v hv
      · exact h.pending v hv
    · rw [hcp]
      exact habove

end InOrder

/-- **A step on a stream in order.** -/
theorem inOrder_step (h : p.InOrder H) (a : Act)
    (hsorted : (streamCursors H (p.step H st a).seen).Pairwise (· ≤ ·)) :
    (p.step H st a).InOrder H ∧ p.Forward H st a := by
  have hmove := move_step H st p a
  unfold Forward
  generalize p.step H st a = p' at hmove hsorted ⊢
  cases hmove with
  | stay => exact ⟨h, fun v hv => ⟨v, hv, le_rfl⟩⟩
  | recv hi hc => exact ⟨h.recv hi hc, fun v hv => ⟨v, hv, le_rfl⟩⟩
  | recvFails hi hc => exact ⟨h.drain (List.prefix_append _ _), fun v hv => ⟨v, hv, le_rfl⟩⟩
  | drain hd ha => exact ⟨h.drain (List.prefix_refl _), fun v hv => ⟨v, hv, le_rfl⟩⟩
  | abandon hd =>
    exact ⟨h.frame rfl (saved_refl p.cp) h.handled (h.tail (List.nil_sublist _)), fun v hv => ⟨v, hv, le_rfl⟩⟩
  | register ht =>
    refine ⟨h.register ht hsorted _, fun v hv => ⟨v, ?_, le_rfl⟩⟩
    rw [register_safe]
    exact hv
  | produce ht | produceDlq ht =>
    refine ⟨h.frame rfl (saved_refl p.cp) h.handled (h.tail ?_), fun v hv => ⟨v, hv, le_rfl⟩⟩
    rw [ht]
    exact List.Sublist.refl _
  | @quiet call rest cp' ht hq hs =>
    have hnone : call.registers = none := by
      cases call with
      | register c => cases hq
      | _ => rfl
    refine ⟨h.frame rfl hs h.handled (h.tail ?_), fun v hv => ⟨v, hs.safe.trans hv, le_rfl⟩⟩
    rw [ht, List.filterMap_cons, hnone]
  | report ht hs hi => exact h.report _ _ _

theorem seen_grows (p : Proc) (a : Act) : p.seen <+: (p.step H st a).seen := by
  have hmove := move_step H st p a
  generalize p.step H st a = p' at hmove ⊢
  cases hmove with
  | recv | recvFails => exact List.prefix_append _ _
  | _ => exact List.prefix_refl _

theorem seen_grows_run (p : Proc) (as : List Act) : p.seen <+: (Trace.run (step H st) p as).seen := by
  induction as generalizing p with
  | nil => exact List.prefix_refl _
  | cons a as ih => exact (seen_grows p a).trans (ih _)

/-- On a stream in order the watermark never moves back. -/
theorem forward_run (h : p.InOrder H) (as : List Act)
    (hsorted : (streamCursors H (Trace.run (step H st) p as).seen).Pairwise (· ≤ ·)) :
    Trace.Along (step H st) (Forward H st) p as := by
  induction as generalizing p with
  | nil => trivial
  | cons a as ih =>
    have hseen : (p.step H st a).seen <+: (Trace.run (step H st) p (a :: as)).seen := seen_grows_run _ as
    obtain ⟨hstep, hforward⟩ := inOrder_step h a (hsorted.sublist (streamCursors_grows hseen).sublist)
    exact ⟨hforward, ih hstep hsorted⟩

/-- What is saved follows the watermark. -/
theorem saved_sorted {as : List Act} (h : Trace.Along (step H st) (Forward H st) p as) :
    (saved H st p as).Pairwise (· ≤ ·) ∧
      ∀ u, p.cp.safeCursor = some u → ∀ v ∈ saved H st p as, u ≤ v := by
  induction as generalizing p with
  | nil => exact ⟨List.Pairwise.nil, fun _ _ v hv => nomatch hv⟩
  | cons a as ih =>
    obtain ⟨hforward, hrest⟩ := h
    obtain ⟨hsorted, hle⟩ := ih hrest
    have hlater : ∀ u, p.cp.safeCursor = some u → ∀ v ∈ saved H st (p.step H st a) as, u ≤ v := by
      intro u hu v hv
      obtain ⟨w, hw, huw⟩ := hforward u hu
      exact huw.trans (hle w hw v hv)
    unfold saved
    cases hs : p.saves st a with
    | none => exact ⟨hsorted, hlater⟩
    | some x =>
      have hx := (saves_eq hs).1
      refine ⟨List.pairwise_cons.2 ⟨hlater x hx, hsorted⟩, fun u hu v hv => ?_⟩
      rcases List.mem_cons.1 hv with rfl | hv
      · exact (Option.some.inj (hu.symm.trans hx)).le
      · exact hlater u hu v hv

/-! ## The eager run -/

/-- A call, the delivery report of the message held coming in while it polls. -/
def eagerCall : Call → List Act
  | .poll => [.report 0 true, .call]
  | _ => [.call]

/-- Each event is received and handled, and its message acked, before the next one. -/
def eager (H : Host) : List Val → List Act
  | [] => []
  | event :: events => match consumeCalls H event 0 with
    | .error _ => []
    | .ok calls => .recv event 0 :: calls.flatMap eagerCall ++ eager H events

/-- Everything received is folded. -/
structure Settled (p : Proc) : Prop where
  idle : p.idle = true
  inflight : p.inflight = []
  pending : ∀ c, c ∉ p.cp.pendingAcks

theorem settled_init (now : ℤ) : (init now).Settled :=
  ⟨rfl, rfl, by simp [init, Checkpointer.init]⟩

/-- The calls of an iteration. -/
theorem consumeCalls_shape {event : Val} {now : ℤ} {calls : List Call}
    (h : consumeCalls H event now = .ok calls) :
    calls = [.poll, .maybeSave now] ∨
    (∃ raw error topic reason,
      calls = [.produceDlq raw error topic, .recordDlq reason, .poll, .maybeSave now]) ∨
    ∃ c m collection, calls = [.register c, .produce m c, .recordEvent collection, .poll, .maybeSave now] := by
  simp only [consumeCalls, route, bind, pure, Except.pure, bind_ok, Except.ok.injEq] at h
  obtain ⟨sent, ⟨cursor, -, commit, -, collection, -, hsent⟩, rfl⟩ := h
  cases hm : toModel H event with
  | error exc =>
    rw [hm] at hsent
    simp only at hsent
    cases hh : firstHandler consumeHandlers exc with
    | none =>
      rw [hh] at hsent
      cases hsent
    | some handler =>
      rw [hh] at hsent
      cases handler with
      | skip =>
        cases hsent
        exact Or.inl rfl
      | deadLetter =>
        cases hsent
        exact Or.inr (Or.inl ⟨_, _, _, _, rfl⟩)
  | ok m =>
    rw [hm] at hsent
    simp only at hsent
    cases ht : cursor.asInt? with
    | none =>
      rw [ht] at hsent
      cases hsent
      exact Or.inr (Or.inl ⟨_, _, _, _, rfl⟩)
    | some t =>
      rw [ht] at hsent
      cases hsent
      exact Or.inr (Or.inr ⟨_, _, _, rfl⟩)

/-- A report of the only pending cursor folds it. -/
theorem onAck_only {s : Checkpointer} {c : ℤ} (h : ∀ d, d ∈ s.pendingAcks ↔ d = c) :
    (s.onAck true c).safeCursor = some c ∧ ∀ d, d ∉ (s.onAck true c).pendingAcks := by
  have hf := s.onAck_folded c
  have hc : c ∈ (s.mark c).foldable := by
    refine ⟨mem_mark.2 ((h c).2 rfl), fun d hd _ => ?_⟩
    exact mem_marked_mark.2 (Or.inl ⟨(h d).1 (mem_mark.1 hd), (h c).2 rfl⟩)
  constructor
  · rcases hf.safe with ⟨hempty, -⟩ | ⟨v, hv, hs⟩
    · rw [hempty] at hc
      exact hc.elim
    · rw [hs, (h v).1 (hf.acked v hv.1).1]
  · intro d hd
    obtain ⟨hd, hnot⟩ := (hf.mem d).1 hd
    exact hnot ((h d).1 hd ▸ hc)

variable (st) in
/-- **The eager run on one event** folds the cursor it registers. -/
theorem eager_event (h : p.Settled) {event : Val} {calls : List Call} (hc : consumeCalls H event 0 = .ok calls) :
    let p' := Trace.run (step H st) p (.recv event 0 :: calls.flatMap eagerCall)
    p'.Settled ∧ p'.seen = p.seen ++ [event] ∧
      p'.cp.safeCursor = (calls.filterMap Call.registers).getLast?.or p.cp.safeCursor := by
  obtain ⟨hidle, hinflight, hpending⟩ := h
  obtain ⟨htodo, hdrain⟩ := idle_iff.1 hidle
  have hrecv : p.step H st (.recv event 0) = { p with seen := p.seen ++ [event], todo := calls } := by
    simp only [step, hidle, if_true, hc]
  rw [Trace.run_cons, hrecv]
  rcases consumeCalls_shape hc with rfl | ⟨raw, error, topic, reason, rfl⟩ | ⟨c, m, collection, rfl⟩
  · have hrun : Trace.run (step H st) { p with seen := p.seen ++ [event], todo := [.poll, .maybeSave 0] }
        ([.poll, .maybeSave 0].flatMap eagerCall) =
        { p with seen := p.seen ++ [event], todo := [], cp := p.cp.maybeSave st 0 } := by
      simp [eagerCall, step, perform, hinflight]
    rw [hrun]
    refine ⟨⟨idle_iff.2 ⟨rfl, hdrain⟩, hinflight, ?_⟩, rfl, ?_⟩
    · simpa using hpending
    · exact maybeSave_safe st p.cp 0
  · have hrun : Trace.run (step H st) { p with
          seen := p.seen ++ [event]
          todo := [.produceDlq raw error topic, .recordDlq reason, .poll, .maybeSave 0] }
        ([.produceDlq raw error topic, .recordDlq reason, .poll, .maybeSave 0].flatMap eagerCall) =
        { p with
          seen := p.seen ++ [event]
          todo := []
          acked := p.acked ++ [p.seen.length]
          cp := p.cp.maybeSave st 0 } := by
      simp [eagerCall, step, perform, hinflight, services, deliver]
    rw [hrun]
    refine ⟨⟨idle_iff.2 ⟨rfl, hdrain⟩, hinflight, ?_⟩, rfl, ?_⟩
    · simpa using hpending
    · exact maybeSave_safe st p.cp 0
  · have hrun : Trace.run (step H st) { p with
          seen := p.seen ++ [event]
          todo := [.register c, .produce m c, .recordEvent collection, .poll, .maybeSave 0] }
        ([.register c, .produce m c, .recordEvent collection, .poll, .maybeSave 0].flatMap eagerCall) =
        { p with
          seen := p.seen ++ [event]
          todo := []
          registered := p.registered ++ [(p.seen.length, c)]
          acked := p.acked ++ [p.seen.length]
          cp := ((p.cp.register c).onAck true c).maybeSave st 0 } := by
      simp [eagerCall, step, perform, hinflight, services, deliver]
    rw [hrun]
    have honly : ∀ d, d ∈ (p.cp.register c).pendingAcks ↔ d = c := by
      intro d
      rw [mem_register]
      exact or_iff_left (hpending d)
    obtain ⟨hsafe, hnone⟩ := onAck_only honly
    refine ⟨⟨idle_iff.2 ⟨rfl, hdrain⟩, hinflight, ?_⟩, rfl, ?_⟩
    · simpa using hnone
    · exact (maybeSave_safe st _ 0).trans hsafe

theorem safe_along {as : List Act} (h : Trace.Along (step H st) (Forward H st) p as) {v : ℤ}
    (hv : p.cp.safeCursor = some v) : ∃ w, (Trace.run (step H st) p as).cp.safeCursor = some w ∧ v ≤ w := by
  induction as generalizing p v with
  | nil => exact ⟨v, hv, le_rfl⟩
  | cons a as ih =>
    obtain ⟨w, hw, hvw⟩ := h.1 v hv
    obtain ⟨x, hx, hwx⟩ := ih h.2 hw
    exact ⟨x, hx, hvw.trans hwx⟩

variable (st) in
/-- **The eager run** receives the stream, and its watermark goes through the cursors registered on it. -/
theorem eager_run (h : p.Settled) (es : List Val) :
    (Trace.run (step H st) p (eager H es)).seen <+: p.seen ++ es ∧
      (Trace.Along (step H st) (Forward H st) p (eager H es) →
        (p.cp.safeCursor.toList ++ streamCursors H es).Pairwise (· ≤ ·)) := by
  have hstop : ∀ {p : Proc} {es : List Val}, p.seen <+: p.seen ++ es ∧
      (True → (p.cp.safeCursor.toList ++ []).Pairwise (· ≤ ·)) := by
    intro p es
    refine ⟨List.prefix_append _ _, fun _ => ?_⟩
    cases p.cp.safeCursor <;> simp
  induction es generalizing p with
  | nil => exact hstop
  | cons event es ih =>
    cases hr : route H event with
    | error e =>
      have hc : consumeCalls H event 0 = .error e := by simp [consumeCalls, hr, bind, Except.bind]
      simp only [eager, hc, streamCursors, hr]
      exact hstop
    | ok sent =>
      obtain ⟨calls, hc⟩ : ∃ calls, consumeCalls H event 0 = .ok calls :=
        ⟨sent ++ [.poll, .maybeSave 0], by simp [consumeCalls, hr, bind, Except.bind, pure, Except.pure]⟩
      obtain ⟨hsettled, hseen, hsafe⟩ := eager_event st h hc
      obtain ⟨sent', hsent', hregs⟩ := consumeCalls_registers hc
      obtain rfl : sent' = sent := Except.ok.inj (hsent'.symm.trans hr)
      simp only [eager, hc, streamCursors, hr, Trace.run_append, Trace.along_append, ← hregs]
      set p' : Proc := Trace.run (step H st) p (.recv event 0 :: calls.flatMap eagerCall)
      obtain ⟨hseen', hsorted⟩ := ih hsettled
      refine ⟨?_, fun hforward => ?_⟩
      · rw [hseen, List.append_assoc] at hseen'
        exact hseen'
      · have hrest := hsorted hforward.2
        have hsame : calls.filterMap Call.registers = [] →
            (p.cp.safeCursor.toList ++ (calls.filterMap Call.registers ++ streamCursors H es)).Pairwise
              (· ≤ ·) := by
          intro hnone
          rw [hnone] at hsafe ⊢
          rw [hsafe] at hrest
          exact hrest
        rcases consumeCalls_shape hc with hcalls | ⟨raw, error, topic, reason, hcalls⟩ | ⟨c, m, collection, hcalls⟩
        · exact hsame (by rw [hcalls]; rfl)
        · exact hsame (by rw [hcalls]; rfl)
        · have hone : calls.filterMap Call.registers = [c] := by rw [hcalls]; rfl
          rw [hone] at hsafe ⊢
          have hc' : p'.cp.safeCursor = some c := hsafe
          rw [hc'] at hrest
          have hsorted : (c :: streamCursors H es).Pairwise (· ≤ ·) := hrest
          -- the watermark before the event is not above its cursor
          cases hv : p.cp.safeCursor with
          | none => exact hsorted
          | some v =>
            obtain ⟨w, hw, hvw⟩ := safe_along hforward.1 hv
            obtain rfl : c = w := Option.some.inj (hc'.symm.trans hw)
            refine List.pairwise_cons.2 ⟨fun x hx => ?_, hsorted⟩
            rcases List.mem_cons.1 hx with rfl | hx
            · exact hvw
            · exact hvw.trans ((List.pairwise_cons.1 hsorted).1 x hx)

end Proc

/-- **The saved cursor, exactly.** On an event stream, whatever the order and outcome of the delivery reports and
of the saves, no step of the process moves the watermark back and the values saved do not decrease, exactly when
the cursors registered on the stream do not decrease. -/
theorem saves_forward_iff (H : Host) (st : IngestSettings) (es : List Val) :
    (∀ now as, (Trace.run (Proc.step H st) (.init now) as).seen <+: es →
        Trace.Along (Proc.step H st) (Proc.Forward H st) (.init now) as ∧
        (Proc.saved H st (.init now) as).Pairwise (· ≤ ·)) ↔
      (streamCursors H es).Pairwise (· ≤ ·) := by
  constructor
  · intro h
    obtain ⟨hseen, hsorted⟩ := Proc.eager_run (H := H) st (Proc.settled_init 0) es
    exact hsorted (h 0 _ hseen).1
  · intro hsorted now as hseen
    have hforward := Proc.forward_run (Proc.inOrder_init (H := H) now) as
      (hsorted.sublist (streamCursors_grows hseen).sublist)
    exact ⟨hforward, (Proc.saved_sorted hforward).1⟩

/-- A post with cursor 20, then one with cursor 10, as after a reconnect. -/
def redelivered : List Val := [postEvent 20 (.str "one"), postEvent 10 (.str "two")]

/-- **The saved cursor goes back** from 20 to 10, with every message acked. -/
theorem saved_goes_back :
    Proc.saved asciiHost everyAck (.init 0) (Proc.eager asciiHost redelivered) = [20, 10] ∧
      (Trace.run (Proc.step asciiHost everyAck) (.init 0) (Proc.eager asciiHost redelivered)).seen = redelivered ∧
      ¬ Trace.Along (Proc.step asciiHost everyAck) (Proc.Forward asciiHost everyAck) (.init 0)
        (Proc.eager asciiHost redelivered) := by
  refine ⟨by decide, rfl, ?_⟩
  intro h
  have hsorted := (Proc.saved_sorted h).1
  revert hsorted
  decide

end BlueskyTrends
