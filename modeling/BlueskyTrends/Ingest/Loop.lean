import BlueskyTrends.Ingest.Checkpointer
import BlueskyTrends.Ingest.Parse
import BlueskyTrends.Lib.Trace

/-!
# The ingest loop

`consumeCalls` is one iteration of `_consume`: the calls it makes on the producer, the
checkpointer and the metrics, in order. `Proc` is a running process: the calls it still
has to make, and the messages librdkafka holds for it. The environment decides when a
call returns or raises, and which delivery report is serviced while a call polls.
-/

namespace BlueskyTrends

/-- A call of the ingest loop on one of its collaborators. -/
inductive Call where
  | register (cursor : ℤ)
  | produce (model : Event) (cursor : ℤ)
  | produceDlq (rawPayload error intendedTopic : String)
  | recordEvent (collection : String)
  | recordDlq (reason : String)
  | poll
  | maybeSave (now : ℤ)
  | flush
  | finalSave

/-- `serialize_raw`. -/
def serializeRaw (event : Val) : String := event.dumps

/-- The two `except` blocks of `_consume`. -/
inductive Handler where
  | skip | deadLetter
  deriving DecidableEq

/-- The `except` clauses of `_consume`, in order. -/
def consumeHandlers : List (List ExcClass × Handler) :=
  [([.valueError], .skip), ([.validationError, .keyError, .typeError], .deadLetter)]

/-- The `collection` local of `_consume`. -/
def collectionOf (commit : Val) : Except PyExc Val :=
  if commit.isDict then commit.getD "collection" (.str "unknown") else .ok (.str "unknown")

/-- Where one iteration of `_consume` sends the event. -/
def route (H : Host) (event : Val) : Except PyExc (List Call) := do
  let eventCursor ← event.get "time_us"
  let commit ← event.get "commit"
  let collection ← collectionOf commit
  match toModel H event with
  | .error exc =>
    match firstHandler consumeHandlers exc with
    -- a `ValidationError` is a `ValueError`: the first clause takes it
    | some .skip => return []
    | some .deadLetter =>
      return [.produceDlq (serializeRaw event) (H.reprExc exc) (H.str collection),
        .recordDlq (H.str collection)]
    -- neither clause names an `AttributeError`
    | none => throw exc
  | .ok model =>
    match eventCursor.asInt? with
    | none =>
      return [.produceDlq (serializeRaw event) "missing or non-int time_us" (H.str collection),
        .recordDlq "missing_time_us"]
    | some cursor =>
      return [.register cursor, .produce model cursor, .recordEvent (H.str collection)]

/-- One iteration of `_consume`, its clock reading `now`. -/
def consumeCalls (H : Host) (event : Val) (now : ℤ) : Except PyExc (List Call) := do
  let calls ← route H event
  return calls ++ [.poll, .maybeSave now]

/-- The `time_us` of an event, when it is an integer. -/
def timeUs (event : Val) : Option ℤ := (event.item? "time_us").bind Val.asInt?

/-- The calls of the `finally` block of `run`. -/
def drainCalls : List Call := [.flush, .finalSave]

/-- A message librdkafka holds: the number of the event it carries, and the cursor its
delivery callback passes to `on_ack` (`none` for a dead letter, whose callback only logs). -/
structure Delivery where
  event : ℕ
  cursor : Option ℤ
  deriving DecidableEq

/-- A running process. Events are numbered as they are received. The last four fields record
the history: the events received, the registrations made (event and cursor), and the events
one of whose messages the broker has acked. -/
structure Proc where
  cp : Checkpointer
  todo : List Call
  draining : Bool
  inflight : List Delivery
  seen : List Val
  registered : List (ℕ × ℤ)
  acked : List ℕ

namespace Proc

/-- `run`, up to the loop. -/
def init (now : ℤ) : Proc := ⟨.init now, [], false, [], [], [], []⟩

/-- What can happen to a process. -/
inductive Act where
  /-- The client yields an event; the loop reads the clock. -/
  | recv (event : Val) (now : ℤ)
  /-- The client yields an event and the stop event is set. -/
  | stop
  /-- The next call returns. -/
  | call
  /-- The next call raises. -/
  | raise
  /-- While the next call polls, it services the report of the `i`-th message held. -/
  | report (i : ℕ) (success : Bool)

/-- The calls during which librdkafka runs delivery callbacks. -/
def services : Call → Bool
  | .produce _ _ | .produceDlq _ _ _ | .poll | .flush => true
  | _ => false

/-- The loop is at its top: it waits for the next event. -/
def idle (p : Proc) : Bool := p.todo.isEmpty && !p.draining

/-- The effect of a call that returns. -/
def perform (st : IngestSettings) (p : Proc) : Call → Proc
  | .register c =>
    { p with cp := p.cp.register c, registered := p.registered ++ [(p.seen.length - 1, c)] }
  | .produce _ c => { p with inflight := p.inflight ++ [⟨p.seen.length - 1, some c⟩] }
  | .produceDlq _ _ _ => { p with inflight := p.inflight ++ [⟨p.seen.length - 1, none⟩] }
  | .maybeSave now => { p with cp := p.cp.maybeSave st now }
  | .finalSave => { p with cp := p.cp.finalSave }
  | .recordEvent _ | .recordDlq _ | .poll | .flush => p

/-- A serviced delivery report: the callback of the message, with its outcome. -/
def deliver (p : Proc) (d : Delivery) (success : Bool) : Proc :=
  { p with
    acked := if success then p.acked ++ [d.event] else p.acked
    cp := match d.cursor with
      | some c => p.cp.onAck success c
      | none => p.cp }

/-- Leave the loop: run the `finally` block. -/
def drain (p : Proc) : Proc := { p with todo := drainCalls, draining := true }

def step (H : Host) (st : IngestSettings) (p : Proc) : Act → Proc
  | .recv event now =>
    if p.idle then
      match consumeCalls H event now with
      | .ok calls => { p with seen := p.seen ++ [event], todo := calls }
      -- an exception leaves the loop for the `finally` block
      | .error _ => { p with seen := p.seen ++ [event] }.drain
    else p
  | .stop => if p.idle then p.drain else p
  | .call => match p.todo with
    | [] => p
    | c :: rest => { p with todo := rest }.perform st c
  | .raise => match p.todo with
    | [] => p
    -- in the `finally` block it skips what is left of it
    | _ :: _ => if p.draining then { p with todo := [] } else p.drain
  | .report i success => match p.todo.head?, p.inflight[i]? with
    | some c, some d =>
      -- callbacks run inside the calls that poll, nowhere else
      if services c then { p with inflight := p.inflight.eraseIdx i }.deliver d success else p
    | _, _ => p

/-- The value an action passes to `store.save`: the next call is `maybe_save` or `final_save`,
it saves, and `store.save` returns or raises. -/
def saves (st : IngestSettings) (p : Proc) : Act → Option ℤ
  | .call | .raise => match p.todo with
    | .maybeSave now :: _ => p.cp.maybeSaveValue st now
    | .finalSave :: _ => p.cp.finalSaveValue
    | _ => none
  | _ => none

end Proc

/-! ## What an iteration does -/

variable {H : Host} {st : IngestSettings} {event v : Val} {now t : ℤ} {calls : List Call} {m : Event}

/-- A call that neither registers a cursor nor hands an event to Kafka. -/
def Call.quiet : Call → Bool
  | .register _ | .produce _ _ | .produceDlq _ _ _ => false
  | _ => true

/-- The calls of an iteration: at most one send, a produce only after the registration of the
event's own `time_us`. -/
inductive Iteration (H : Host) (event : Val) : List Call → Prop
  | skipped {rest : List Call} (hr : ∀ c ∈ rest, c.quiet) : Iteration H event rest
  | deadLettered {raw error topic : String} {rest : List Call} (hr : ∀ c ∈ rest, c.quiet) :
      Iteration H event (.produceDlq raw error topic :: rest)
  | produced {m : Event} {t : ℤ} {rest : List Call} (hm : toModel H event = .ok m)
      (ht : timeUs event = some t) (hr : ∀ c ∈ rest, c.quiet) :
      Iteration H event (.register t :: .produce m t :: rest)

theorem Val.dict_of_get {name : String} {x : Val} (h : v.get name = .ok x) : v.isDict = true := by
  cases v with
  | dict items => rfl
  | _ => cases h

theorem timeUs_eq (h : event.get "time_us" = .ok v) : v.asInt? = timeUs event := by
  rw [Val.get_dict (Val.dict_of_get h), Except.ok.injEq] at h
  subst h
  unfold timeUs
  cases event.item? "time_us" <;> rfl

theorem consumeCalls_ok (h : consumeCalls H event now = .ok calls) : Iteration H event calls := by
  simp only [consumeCalls, route, bind, pure, Except.pure, bind_ok, Except.ok.injEq] at h
  obtain ⟨sent, ⟨cursor, hcur, commit, -, collection, -, hsent⟩, rfl⟩ := h
  -- as the source: first whether `to_model` raises, then the handler or the cursor
  cases hm : toModel H event with
  | error exc =>
    rw [hm] at hsent
    simp only at hsent
    cases hh : firstHandler consumeHandlers exc with
    | none => rw [hh] at hsent; cases hsent
    | some handler =>
      rw [hh] at hsent
      cases handler with
      | skip => cases hsent; exact .skipped (by simp [Call.quiet])
      | deadLetter => cases hsent; exact .deadLettered (by simp [Call.quiet])
  | ok m =>
    rw [hm] at hsent
    simp only at hsent
    cases ht : cursor.asInt? with
    | none => rw [ht] at hsent; cases hsent; exact .deadLettered (by simp [Call.quiet])
    | some t =>
      rw [ht] at hsent; cases hsent
      exact .produced hm (timeUs_eq hcur ▸ ht) (by simp [Call.quiet])

theorem registers_own {calls : List Call} (h : Iteration H event calls) :
    ∀ c, .register c ∈ calls → timeUs event = some c := by
  intro c hc
  cases h with
  | skipped hr => cases hr _ hc
  | deadLettered hr =>
    rcases List.mem_cons.1 hc with hc | hc
    · cases hc
    · cases hr _ hc
  | produced _ ht hr =>
    rcases List.mem_cons.1 hc with hc | hc
    · cases hc; exact ht
    · rcases List.mem_cons.1 hc with hc | hc
      · cases hc
      · cases hr _ hc

/-- The `collection` local, from the event. -/
def collectionIn (event : Val) : Val :=
  (((event.item? "commit").getD .null).item? "collection").getD (.str "unknown")

theorem collectionOf_eq (commit : Val) :
    collectionOf commit = .ok ((commit.item? "collection").getD (.str "unknown")) := by
  cases commit with
  | dict items => rfl
  | _ => rfl

/-- What `route` does with an event that is an object. -/
theorem route_dict (hd : event.isDict = true) : route H event = match toModel H event with
    | .error exc => match firstHandler consumeHandlers exc with
      | some .skip => .ok []
      | some .deadLetter => .ok [.produceDlq (serializeRaw event) (H.reprExc exc) (H.str (collectionIn event)),
          .recordDlq (H.str (collectionIn event))]
      | none => .error exc
    | .ok model => match timeUs event with
      | none => .ok [.produceDlq (serializeRaw event) "missing or non-int time_us" (H.str (collectionIn event)),
          .recordDlq "missing_time_us"]
      | some cursor => .ok [.register cursor, .produce model cursor, .recordEvent (H.str (collectionIn event))] := by
  have hcur := Val.get_dict hd "time_us"
  have hcommit := Val.get_dict hd "commit"
  unfold route collectionIn
  rw [hcur, hcommit]
  simp only [bind, Except.bind, collectionOf_eq, timeUs_eq hcur]
  rfl

theorem collectionOf_ok (commit : Val) : ∃ x, collectionOf commit = .ok x := by
  cases commit with
  | dict items => exact ⟨_, rfl⟩
  | _ => exact ⟨_, rfl⟩

/-- An accepted event is registered and produced. -/
theorem consumeCalls_accepted (hm : toModel H event = .ok m) (ht : timeUs event = some t) (now : ℤ) :
    ∃ rest, consumeCalls H event now = .ok (.register t :: .produce m t :: rest) := by
  have hd : event.isDict = true := by
    simp only [toModel, bind, bind_ok] at hm
    obtain ⟨kind, hk, -⟩ := hm
    exact Val.dict_of_get hk
  have hcur := Val.get_dict hd "time_us"
  have hc := Val.get_dict hd "commit"
  obtain ⟨x, hx⟩ := collectionOf_ok ((event.item? "commit").getD .null)
  refine ⟨[.recordEvent (H.str x), .poll, .maybeSave now], ?_⟩
  simp only [consumeCalls, route, bind, Except.bind, pure, Except.pure, hcur, hc, hx, hm,
    (timeUs_eq hcur).trans ht]
  rfl

/-! ## What a step does -/

/-- What a save leaves as it is. -/
structure Saved (s s' : Checkpointer) : Prop where
  pending : s'.pendingAcks = s.pendingAcks
  safe : s'.safeCursor = s.safeCursor
  saved : s'.savedCursor = s.savedCursor ∨ s'.savedCursor = s.safeCursor

theorem saved_refl (s : Checkpointer) : Saved s s := ⟨rfl, rfl, Or.inl rfl⟩

theorem saved_maybeSave (st : IngestSettings) (s : Checkpointer) (now : ℤ) :
    Saved s (s.maybeSave st now) := by
  refine ⟨by simp, by simp, ?_⟩
  unfold Checkpointer.maybeSave
  split
  · exact Or.inr rfl
  · exact Or.inl rfl

theorem saved_finalSave (s : Checkpointer) : Saved s s.finalSave := by
  refine ⟨by simp, by simp, ?_⟩
  unfold Checkpointer.finalSave
  split
  · exact Or.inr rfl
  · exact Or.inl rfl

namespace Proc

/-- The steps of a process, one constructor for each thing that can happen to it. -/
inductive Move (H : Host) (p : Proc) : Act → Proc → Prop
  | stay {a : Act} : Move H p a p
  | recv {event : Val} {now : ℤ} {calls : List Call} (hi : p.idle)
      (hc : consumeCalls H event now = .ok calls) :
      Move H p (.recv event now) { p with seen := p.seen ++ [event], todo := calls }
  | recvFails {event : Val} {now : ℤ} {e : PyExc} (hi : p.idle)
      (hc : consumeCalls H event now = .error e) :
      Move H p (.recv event now) { p with seen := p.seen ++ [event], todo := drainCalls, draining := true }
  | drain {a : Act} (hd : p.draining = false) (ha : a = .stop ∧ p.idle ∨ a = .raise ∧ p.todo ≠ []) :
      Move H p a p.drain
  | abandon (hd : p.draining = true) : Move H p .raise { p with todo := [] }
  | register {c : ℤ} {rest : List Call} (ht : p.todo = .register c :: rest) : Move H p .call { p with
      todo := rest, cp := p.cp.register c, registered := p.registered ++ [(p.seen.length - 1, c)] }
  | produce {m : Event} {c : ℤ} {rest : List Call} (ht : p.todo = .produce m c :: rest) :
      Move H p .call { p with
      todo := rest, inflight := p.inflight ++ [⟨p.seen.length - 1, some c⟩] }
  | produceDlq {raw error topic : String} {rest : List Call}
      (ht : p.todo = .produceDlq raw error topic :: rest) :
      Move H p .call { p with todo := rest, inflight := p.inflight ++ [⟨p.seen.length - 1, none⟩] }
  | quiet {call : Call} {rest : List Call} {cp' : Checkpointer} (ht : p.todo = call :: rest)
      (hq : call.quiet) (hs : Saved p.cp cp') :
      Move H p .call { p with todo := rest, cp := cp' }
  | report {i : ℕ} {d : Delivery} {success : Bool} {call : Call} {rest : List Call}
      (ht : p.todo = call :: rest) (hs : services call) (hi : p.inflight[i]? = some d) :
      Move H p (.report i success) ({ p with inflight := p.inflight.eraseIdx i }.deliver d success)

variable {p : Proc} {a : Act}

theorem idle_iff : p.idle ↔ p.todo = [] ∧ p.draining = false := by
  simp [idle]

/-- **What a step can do.** -/
theorem move_step (H : Host) (st : IngestSettings) (p : Proc) (a : Act) : Move H p a (p.step H st a) := by
  cases a with
  | recv event now =>
    by_cases hi : p.idle
    · rw [step, if_pos hi]
      split
      · rename_i calls hc; exact .recv hi hc
      · rename_i e he; exact .recvFails hi he
    · rw [step, if_neg hi]; exact .stay
  | stop =>
    by_cases hi : p.idle
    · rw [step, if_pos hi]; exact .drain (idle_iff.1 hi).2 (Or.inl ⟨rfl, hi⟩)
    · rw [step, if_neg hi]; exact .stay
  | call =>
    rw [step]
    split
    · exact .stay
    · rename_i c rest ht
      cases c with
      | register c => exact .register ht
      | produce m c => exact .produce ht
      | produceDlq raw error topic => exact .produceDlq ht
      | maybeSave now => exact .quiet ht rfl (saved_maybeSave st p.cp now)
      | finalSave => exact .quiet ht rfl (saved_finalSave p.cp)
      | recordEvent collection => exact .quiet ht rfl (saved_refl p.cp)
      | recordDlq reason => exact .quiet ht rfl (saved_refl p.cp)
      | poll => exact .quiet ht rfl (saved_refl p.cp)
      | flush => exact .quiet ht rfl (saved_refl p.cp)
  | raise =>
    rw [step]
    split
    · exact .stay
    · rename_i c rest ht
      by_cases hd : p.draining
      · rw [if_pos hd]; exact .abandon hd
      · rw [if_neg hd]; exact .drain (by simpa using hd) (Or.inr ⟨rfl, by rw [ht]; simp⟩)
  | report i success =>
    rw [step]
    split
    · rename_i c d hc hd
      obtain ⟨rest, ht⟩ : ∃ rest, p.todo = c :: rest := by
        cases h : p.todo with
        | nil => rw [h] at hc; cases hc
        | cons x rest => rw [h] at hc; cases hc; exact ⟨rest, rfl⟩
      by_cases hs : services c
      · rw [if_pos hs]; exact .report ht hs hd
      · rw [if_neg hs]; exact .stay
    · exact .stay

theorem step_report_nil {i : ℕ} {success : Bool} (hp : p.todo = []) : p.step H st (.report i success) = p := by
  unfold step
  rw [hp]
  rfl

/-- A report is serviced while a call polls, if its message is held. -/
theorem step_report_cons {c : Call} {rest : List Call} {i : ℕ} {success : Bool} (hp : p.todo = c :: rest) :
    p.step H st (.report i success) = (p.inflight[i]?.map fun d =>
      if services c then { p with inflight := p.inflight.eraseIdx i }.deliver d success else p).getD p := by
  unfold step
  simp only [hp, List.head?_cons]
  cases p.inflight[i]? with
  | none => rfl
  | some d => simp only [Option.map_some, Option.getD_some, ← hp]

/-- What is saved is the watermark, and it was not saved before. -/
theorem saves_eq {v : ℤ} (h : p.saves st a = some v) :
    p.cp.safeCursor = some v ∧ p.cp.savedCursor ≠ some v := by
  have key : (∃ now, p.cp.maybeSaveValue st now = some v) ∨ p.cp.finalSaveValue = some v := by
    unfold saves at h
    split at h
    · split at h
      · exact Or.inl ⟨_, h⟩
      · exact Or.inr h
      · cases h
    · split at h
      · exact Or.inl ⟨_, h⟩
      · exact Or.inr h
      · cases h
    · cases h
  rcases key with ⟨now, hv⟩ | hv
  · have hs := Checkpointer.maybeSaveValue_eq hv
    refine ⟨hs, fun hv' => ?_⟩
    rw [Checkpointer.maybeSaveValue, Checkpointer.due, hs, hv'] at hv
    simp at hv
  · have hs := Checkpointer.finalSaveValue_eq hv
    refine ⟨hs, fun hv' => ?_⟩
    rw [Checkpointer.finalSaveValue, hs, hv'] at hv
    simp at hv

end Proc

end BlueskyTrends
