import BlueskyTrends.Proof.Routing

/-!
# The parse boundary

Whatever JSON object the client yields, `to_model` raises nothing that the loop does not handle, and the
iteration that handles the event ends at the top of the loop.

* `checked_or_valueError`: an event of another shape is not ingested.
* `toModel_error`: the classes of the exceptions `to_model` raises.
* `handled`: each of them has a clause.
* `consumeCalls_total`: an iteration makes its calls without raising.
* `iteration_ends`: when they return, the process is back at the top of the loop.
-/

namespace BlueskyTrends

variable {H : Host} {event v x : Val} {name s : String} {e : PyExc} {calls : List Call} {now : ℤ}

/-! ## What `to_model` raises -/

theorem item_of_dict {o : Option Val} (h : (o.getD .null).isDict = true) : o = some (o.getD .null) := by
  cases o with
  | none => cases h
  | some v => rfl

theorem item_of_eqStr {o : Option Val} (h : (o.getD .null).eqStr s = true) : o = some (.str s) := by
  cases o with
  | none => cases h
  | some v =>
    have hv : v = .str s := Val.eqStr_iff.1 h
    rw [hv]

/-- An event that passes the shape checks of `to_model`. -/
structure IsChecked (event commit record : Val) : Prop where
  isCommit : event.item? "kind" = some (.str "commit")
  hasCommit : event.item? "commit" = some commit
  isCreate : commit.item? "operation" = some (.str "create")
  hasRecord : commit.item? "record" = some record
  recordDict : record.isDict = true

/-- An event that does not pass the shape checks is not ingested. -/
theorem checked_or_valueError (H : Host) (hj : event.isDict = true) :
    (∃ commit record, IsChecked event commit record) ∨ ∃ msg, toModel H event = .error (.valueError msg) := by
  have hkind := Val.get_dict hj "kind"
  have hget := Val.get_dict hj "commit"
  by_cases hc : ((event.item? "kind").getD .null).eqStr "commit" = true
  swap
  · refine Or.inr ⟨"not a commit event: kind=" ++ H.repr ((event.item? "kind").getD .null), ?_⟩
    simp only [toModel, hkind, bind, Except.bind, hc]
    rfl
  by_cases hd : ((event.item? "commit").getD .null).isDict = true
  swap
  · refine Or.inr ⟨"commit event missing 'commit' object", ?_⟩
    simp only [toModel, hkind, hget, bind, Except.bind, hc, hd]
    rfl
  have hcommit := item_of_dict hd
  generalize (event.item? "commit").getD .null = commit at hcommit hget hd
  have hop := Val.get_dict hd "operation"
  have hrec := Val.get_dict hd "record"
  by_cases ho : ((commit.item? "operation").getD .null).eqStr "create" = true
  swap
  · refine Or.inr ⟨"unsupported operation: " ++ H.repr ((commit.item? "operation").getD .null), ?_⟩
    simp only [toModel, hkind, hget, hop, bind, Except.bind, hc, hd, ho]
    rfl
  by_cases hr : ((commit.item? "record").getD .null).isDict = true
  swap
  · refine Or.inr ⟨"commit missing 'record' object", ?_⟩
    simp only [toModel, hkind, hget, hop, hrec, bind, Except.bind, hc, hd, ho, hr]
    rfl
  exact Or.inl ⟨commit, _, item_of_eqStr hc, hcommit, item_of_eqStr ho, item_of_dict hr, hr⟩

/-- Past the shape checks the `did` is read, and then the collection. -/
theorem toModel_other {commit record : Val} (h : IsChecked event commit record)
    (hk : ∀ k : Kind, commit.item? "collection" ≠ some (.str k.collection)) :
    toModel H event = (event.subscript "did").bind fun _ =>
      .error (.valueError ("unknown collection: " ++ H.repr ((commit.item? "collection").getD .null))) := by
  have hd := Val.isDict_item h.isCreate
  have hsame : ∀ s, (Val.str s).eqStr s = true := fun s => Val.eqStr_iff.2 rfl
  have hno : ∀ k : Kind, ((commit.item? "collection").getD .null).eqStr k.collection = false := by
    intro k
    by_contra hyes
    exact hk k (item_of_eqStr (by simpa using hyes))
  have hpost := hno .post
  have hlike := hno .like
  have hfollow := hno .follow
  simp only [Kind.collection] at hpost hlike hfollow
  simp only [toModel, Val.get_item h.isCommit, Val.get_item h.hasCommit, Val.get_item h.isCreate,
    Val.get_item h.hasRecord, Val.get_dict hd "collection", hd, h.recordDict, hpost, hlike, hfollow, hsame,
    bind, Except.bind, pure, Except.pure, Bool.not_true, Bool.false_eq_true, if_false]
  rfl

/-- A read that fails raises one of them. -/
theorem raised_of_read (h : e.cls = .keyError ∨ e.cls = .typeError) :
    e.cls ∈ [ExcClass.valueError, .validationError, .keyError, .typeError] := by
  rcases h with h | h
  · rw [h]; decide
  · rw [h]; decide

theorem IsChecked.create {k : Kind} {commit record : Val} (h : IsChecked event commit record)
    (hk : commit.item? "collection" = some (.str k.collection)) : IsCreate k event commit record :=
  ⟨h.isCommit, h.hasCommit, h.isCreate, h.hasRecord, h.recordDict, hk⟩

/-- **What `to_model` raises**, on any JSON object. -/
theorem toModel_error (hj : event.isDict = true) (he : toModel H event = .error e) :
    e.cls ∈ [ExcClass.valueError, .validationError, .keyError, .typeError] := by
  rcases checked_or_valueError H hj with ⟨commit, record, h⟩ | ⟨msg, hmsg⟩
  · by_cases hk : ∃ k : Kind, commit.item? "collection" = some (.str k.collection)
    · -- a create commit: a field cannot be read, or has the wrong type
      obtain ⟨k, hk⟩ := hk
      have hcreate := h.create hk
      rw [toModel_read hcreate, bind_error] at he
      rcases he with he | ⟨kw, -, he⟩
      · exact raised_of_read (fields_error hcreate he)
      · have hcls := build_error he
        rw [hcls]; decide
    · -- another collection, or none
      rw [toModel_other h (not_exists.1 hk), bind_error] at he
      rcases he with he | ⟨did, -, he⟩
      · exact raised_of_read (Val.subscript_error he)
      · cases he
        exact List.mem_cons_self
  · rw [hmsg] at he
    cases he
    exact List.mem_cons_self

/-! ## What the loop does with it -/

/-- Each of the classes has a clause. -/
theorem handled (h : e.cls ∈ [ExcClass.valueError, .validationError, .keyError, .typeError]) :
    ∃ handler, firstHandler consumeHandlers e = some handler := by
  simp only [List.mem_cons, List.not_mem_nil, or_false] at h
  unfold firstHandler
  rcases h with h | h | h | h
  · rw [h]; exact ⟨.skip, rfl⟩
  · rw [h]; exact ⟨.skip, rfl⟩
  · rw [h]; exact ⟨.deadLetter, rfl⟩
  · rw [h]; exact ⟨.deadLetter, rfl⟩

/-- **An iteration does not raise**, whatever the event. -/
theorem consumeCalls_total (H : Host) (hj : event.isDict = true) (now : ℤ) :
    ∃ calls, consumeCalls H event now = .ok calls := by
  have hcur := Val.get_dict hj "time_us"
  have hget := Val.get_dict hj "commit"
  obtain ⟨collection, hcoll⟩ := collectionOf_ok ((event.item? "commit").getD .null)
  have hroute : ∃ sent, route H event = .ok sent := by
    cases hm : toModel H event with
    | error e =>
      obtain ⟨handler, hh⟩ := handled (toModel_error hj hm)
      cases handler with
      | skip =>
        refine ⟨[], ?_⟩
        simp only [route, hcur, hget, hcoll, hm, hh, bind, Except.bind, pure, Except.pure]
      | deadLetter =>
        simp only [route, hcur, hget, hcoll, hm, hh, bind, Except.bind, pure, Except.pure]
        exact ⟨_, rfl⟩
    | ok m =>
      simp only [route, hcur, hget, hcoll, hm, bind, Except.bind, pure, Except.pure]
      cases ((event.item? "time_us").getD .null).asInt? with
      | none => exact ⟨_, rfl⟩
      | some t => exact ⟨_, rfl⟩
  obtain ⟨sent, hsent⟩ := hroute
  refine ⟨sent ++ [.poll, .maybeSave now], ?_⟩
  rw [consumeCalls, hsent]
  rfl

/-- The three routes of an event. -/
inductive Route where
  | produce | produceDlq | skip

/-- The calls of an iteration send the event along a route, and along no other. -/
def Takes (calls : List Call) : Route → Prop
  | .produce => ∃ m c, sends calls = [.produce m c]
  | .produceDlq => ∃ raw error topic, sends calls = [.produceDlq raw error topic]
  | .skip => sends calls = []

/-- A cursor is registered exactly where the next call produces with it, and nothing is produced first. -/
def RegistersThenProduces (calls : List Call) : Prop :=
  (∀ i c, calls[i]? = some (.register c) ↔ ∃ m, calls[i + 1]? = some (.produce m c)) ∧
    ∀ m c, calls[0]? ≠ some (.produce m c)

theorem sends_quiet (h : ∀ c ∈ calls, c.quiet) : sends calls = [] := by
  refine List.filter_eq_nil_iff.2 fun c hc hsend => ?_
  have hq := h c hc
  cases c <;> simp_all [Call.quiet, Call.isSend]

/-- A quiet call registers nothing and produces nothing. -/
theorem quiet_at (h : ∀ c ∈ calls, c.quiet) (i : ℕ) :
    (∀ c, calls[i]? ≠ some (.register c)) ∧ ∀ m c, calls[i]? ≠ some (.produce m c) := by
  constructor
  · intro c hc
    have hq := h _ (List.mem_of_getElem? hc)
    cases hq
  · intro m c hc
    have hq := h _ (List.mem_of_getElem? hc)
    cases hq

theorem Iteration.takes (h : Iteration H event calls) : ∃! r, Takes calls r := by
  cases h with
  | skipped hr =>
    have hsends := sends_quiet hr
    refine ⟨.skip, hsends, fun r h => ?_⟩
    cases r <;> simp_all [Takes]
  | deadLettered hr =>
    rename_i raw error topic rest
    have hsends : sends (.produceDlq raw error topic :: rest) = [.produceDlq raw error topic] :=
      congrArg (Call.produceDlq raw error topic :: ·) (sends_quiet hr)
    refine ⟨.produceDlq, ⟨raw, error, topic, hsends⟩, fun r h => ?_⟩
    cases r <;> simp_all [Takes]
  | produced hm ht hr =>
    rename_i m t rest
    have hsends : sends (.register t :: .produce m t :: rest) = [.produce m t] :=
      congrArg (Call.produce m t :: ·) (sends_quiet hr)
    refine ⟨.produce, ⟨m, t, hsends⟩, fun r h => ?_⟩
    cases r <;> simp_all [Takes]

theorem Iteration.registers (h : Iteration H event calls) : RegistersThenProduces calls := by
  cases h with
  | skipped hr =>
    refine ⟨fun i c => ?_, (quiet_at hr 0).2⟩
    constructor
    · intro hc
      exact absurd hc ((quiet_at hr i).1 c)
    · rintro ⟨m, hm⟩
      exact absurd hm ((quiet_at hr (i + 1)).2 m c)
  | deadLettered hr =>
    refine ⟨fun i c => ?_, fun m c hm => by cases hm⟩
    constructor
    · intro hc
      cases i with
      | zero => cases hc
      | succ i => exact absurd hc ((quiet_at hr i).1 c)
    · rintro ⟨m, hm⟩
      exact absurd hm ((quiet_at hr i).2 m c)
  | produced hm ht hr =>
    refine ⟨fun i c => ?_, fun m c hm => by cases hm⟩
    -- the registration is the first call, the produce the second
    constructor
    · intro hc
      rcases i with _ | _ | i
      · cases hc
        exact ⟨_, rfl⟩
      · cases hc
      · exact absurd hc ((quiet_at hr i).1 c)
    · rintro ⟨m, hm⟩
      rcases i with _ | i
      · cases hm
        rfl
      · exact absurd hm ((quiet_at hr i).2 m c)

/-! ## The iteration ends -/

namespace Proc

variable {st : IngestSettings} {p : Proc} {as : List Act}

/-- A call that returns, or a report serviced while it polls. -/
def Act.proceeds : Act → Bool
  | .call | .report _ _ => true
  | _ => false

def Act.isCall : Act → Bool
  | .call => true
  | _ => false

theorem perform_todo (st : IngestSettings) (p : Proc) (c : Call) :
    (p.perform st c).todo = p.todo ∧ (p.perform st c).draining = p.draining := by
  cases c <;> exact ⟨rfl, rfl⟩

/-- A call that returns is done with; a report leaves the calls to make as they are. -/
theorem step_proceeds (H : Host) (st : IngestSettings) (p : Proc) {a : Act} (ha : a.proceeds) :
    (p.step H st a).todo = p.todo.drop (if a.isCall then 1 else 0) ∧
      (p.step H st a).draining = p.draining := by
  cases a with
  | call =>
    cases ht : p.todo with
    | nil => simp [step, ht]
    | cons c rest =>
      have hframe := perform_todo st { p with todo := rest } c
      simpa [step, ht, Act.isCall] using hframe
  | report i success =>
    rw [step]
    split
    · split
      · exact ⟨rfl, rfl⟩
      · exact ⟨rfl, rfl⟩
    · exact ⟨rfl, rfl⟩
  | recv | stop | raise => cases ha

/-- **Calls that return are made one after the other**, whatever reports are serviced meanwhile. -/
theorem run_proceeds (H : Host) (st : IngestSettings) (p : Proc) (has : ∀ a ∈ as, a.proceeds) :
    (Trace.run (step H st) p as).todo = p.todo.drop (as.countP Act.isCall) ∧
      (Trace.run (step H st) p as).draining = p.draining := by
  induction as generalizing p with
  | nil => exact ⟨rfl, rfl⟩
  | cons a as ih =>
    obtain ⟨htodo, hdraining⟩ := step_proceeds H st p (has a List.mem_cons_self)
    obtain ⟨htodo', hdraining'⟩ := ih (p.step H st a) fun b hb => has b (List.mem_cons_of_mem _ hb)
    rw [Trace.run_cons]
    refine ⟨?_, hdraining'.trans hdraining⟩
    rw [htodo', htodo, List.drop_drop, List.countP_cons, Nat.add_comm]

/-- **An iteration whose calls return ends at the top of the loop.** -/
theorem iteration_ends (hi : p.idle) (hc : consumeCalls H event now = .ok calls)
    (has : ∀ a ∈ as, a.proceeds) (hlen : as.countP Act.isCall = calls.length) :
    (Trace.run (step H st) p (.recv event now :: as)).idle := by
  have hrecv : p.step H st (.recv event now) = { p with seen := p.seen ++ [event], todo := calls } := by
    rw [step, if_pos hi, hc]
  obtain ⟨htodo, hdraining⟩ := run_proceeds H st { p with seen := p.seen ++ [event], todo := calls } has
  rw [Trace.run_cons, hrecv, idle_iff, htodo, hdraining, hlen]
  exact ⟨List.drop_length, (idle_iff.1 hi).2⟩

end Proc

/-- **No event crashes the parse boundary.** On any JSON object `to_model` returns a model or raises one of four
exceptions. The iteration makes its calls without raising: it takes exactly one of the three routes, and registers
a cursor exactly where it produces next. When the calls return, whatever delivery reports are serviced meanwhile,
the process is back at the top of the loop. -/
theorem parse_boundary (H : Host) (st : IngestSettings) (hj : event.isDict = true) (now : ℤ) :
    (∀ e, toModel H event = .error e →
      e.cls ∈ [ExcClass.valueError, .validationError, .keyError, .typeError]) ∧
    ∃ calls, consumeCalls H event now = .ok calls ∧ (∃! r, Takes calls r) ∧ RegistersThenProduces calls ∧
      ∀ (p : Proc) (as : List Proc.Act), p.idle → (∀ a ∈ as, a.proceeds) →
        as.countP Proc.Act.isCall = calls.length →
        (Trace.run (Proc.step H st) p (.recv event now :: as)).idle := by
  obtain ⟨calls, hcalls⟩ := consumeCalls_total H hj now
  have hiter := consumeCalls_ok hcalls
  refine ⟨fun e he => toModel_error hj he, calls, hcalls, hiter.takes, hiter.registers, ?_⟩
  intro p as hi has hlen
  exact Proc.iteration_ends hi hcalls has hlen

/-- A like whose subject is a list. -/
def brokenLike : Val := .dict [("did", .str "did:plc:author123"), ("time_us", .int 1700000000000001),
  ("kind", .str "commit"), ("commit", .dict [("operation", .str "create"),
    ("collection", .str "app.bsky.feed.like"), ("rkey", .str "3klikerkey"), ("cid", .str "bafylike"),
    ("record", .dict [("createdAt", .str "2024-01-01T00:00:00.000Z"), ("subject", .list [.int 1])])])]

/-- It is dead-lettered, and the process goes on. -/
theorem parse_boundary_list : ∃ calls, consumeCalls asciiHost brokenLike 0 = .ok calls ∧ (∃! r, Takes calls r) ∧
    Takes calls .produceDlq ∧
    (Trace.run (Proc.step asciiHost ⟨100, 2⟩) (.init 0) (.recv brokenLike 0 :: List.replicate 4 .call)).idle := by
  have hj : brokenLike.isDict = true := rfl
  obtain ⟨-, calls, hcalls, hroute, -, hends⟩ := parse_boundary asciiHost ⟨100, 2⟩ hj 0
  have hdead : consumeCalls asciiHost brokenLike 0 = .ok [.produceDlq (serializeRaw brokenLike)
      "TypeError('list indices must be integers or slices, not str')" "app.bsky.feed.like",
      .recordDlq "app.bsky.feed.like", .poll, .maybeSave 0] := rfl
  obtain rfl : _ = calls := Except.ok.inj (hdead.symm.trans hcalls)
  exact ⟨_, hcalls, hroute, ⟨_, _, _, rfl⟩, hends _ _ rfl (by simp [Proc.Act.proceeds]) rfl⟩

end BlueskyTrends
