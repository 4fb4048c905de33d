import BlueskyTrends.Ingest.Loads
import BlueskyTrends.Proof.Cursor
import BlueskyTrends.Proof.Routing

/-!
# Replaying a payload

A dead letter holds the event as `json.dumps` writes it, so that it can be replayed. What
`json.loads` makes of it is the event with its dicts sorted by key. The ingest loop sends that event
where it sent the first one: every lookup it makes finds the same, and what it raises differs at
most in the text of a `ValueError`, which it passes over.

* `toModel_sorted`: the same model, or an exception that is handled the same.
* `route_sorted`: the same calls.
* `payload_reads_back`: **a payload holds the event**, up to the order of keys.
* `Proc.replay_run`: **a replay is the run again**, step by step.
-/

namespace BlueskyTrends

/-! ## Lookups -/

theorem lookup_orderedInsert {α : Type} (k : String) (p : String × α) (items : List (String × α)) :
    (items.orderedInsert (fun a b => a.1 ≤ b.1) p).lookup k = (p :: items).lookup k := by
  induction items with
  | nil => rfl
  | cons q items ih =>
    rw [List.orderedInsert]
    split
    · rfl
    · rename_i hle
      have hne : p.1 ≠ q.1 := by
        intro heq
        rw [heq] at hle
        exact hle (String.le_refl _)
      rw [List.lookup_cons, ih, List.lookup_cons, List.lookup_cons, List.lookup_cons]
      by_cases hq : k = q.1
      · have hp : (k == p.1) = false := by
          rw [hq]
          exact beq_false_of_ne hne.symm
        rw [hp]
      · rw [beq_false_of_ne hq]

/-- **A key has the same value in a sorted dict**, also where it stands twice. -/
theorem lookup_insertionSort {α : Type} (k : String) (items : List (String × α)) :
    (items.insertionSort fun a b => a.1 ≤ b.1).lookup k = items.lookup k := by
  induction items with
  | nil => rfl
  | cons p items ih => rw [List.insertionSort_cons, lookup_orderedInsert, List.lookup_cons, List.lookup_cons, ih]

theorem lookup_map {α β : Type} (f : α → β) (k : String) (items : List (String × α)) :
    (items.map fun p => (p.1, f p.2)).lookup k = (items.lookup k).map f := by
  induction items with
  | nil => rfl
  | cons p items ih =>
    rw [List.map_cons, List.lookup_cons, List.lookup_cons, ih]
    cases k == p.1 <;> rfl

variable {H : Host} {event v w : Val} {k : String}

theorem item?_sorted (v : Val) (k : String) : v.sorted.item? k = (v.item? k).map Val.sorted := by
  cases v with
  | dict items =>
    rw [sorted_dict]
    change (List.map _ _).lookup k = (items.lookup k).map Val.sorted
    rw [lookup_map, lookup_insertionSort]
  | list xs => rw [sorted_list]; rfl
  | _ => rw [sorted_scalar rfl]; rfl

theorem isDict_sorted (v : Val) : v.sorted.isDict = v.isDict := by
  cases v with
  | dict items => rw [sorted_dict]; rfl
  | list xs => rw [sorted_list]; rfl
  | _ => rw [sorted_scalar rfl]

theorem typeName_sorted (v : Val) : v.sorted.typeName = v.typeName := by
  cases v with
  | dict items => rw [sorted_dict]; rfl
  | list xs => rw [sorted_list]; rfl
  | _ => rw [sorted_scalar rfl]

theorem asInt?_sorted (v : Val) : v.sorted.asInt? = v.asInt? := by
  cases v with
  | dict items => rw [sorted_dict]; rfl
  | list xs => rw [sorted_list]; rfl
  | _ => rw [sorted_scalar rfl]

theorem asStr?_sorted (v : Val) : v.sorted.asStr? = v.asStr? := by
  cases v with
  | dict items => rw [sorted_dict]; rfl
  | list xs => rw [sorted_list]; rfl
  | _ => rw [sorted_scalar rfl]

theorem eqStr_sorted (v : Val) (s : String) : v.sorted.eqStr s = v.eqStr s := by
  cases v with
  | dict items => rw [sorted_dict]; rfl
  | list xs => rw [sorted_list]; rfl
  | _ => rw [sorted_scalar rfl]

/-! ## Exceptions -/

/-- Two exceptions that differ at most in the text of a `ValueError`. -/
def Alike (e f : PyExc) : Prop := e = f ∨ e.cls = f.cls ∧ (e.cls = .valueError ∨ e.cls = .validationError)

/-- Two results: what they return is related, or they raise alike. -/
inductive Matches {α β : Type} (R : α → β → Prop) : Except PyExc α → Except PyExc β → Prop
  | ok {a : α} {b : β} (h : R a b) : Matches R (.ok a) (.ok b)
  | error {e f : PyExc} (h : Alike e f) : Matches R (.error e) (.error f)

theorem Matches.bind {α β γ δ : Type} {R : α → β → Prop} {S : γ → δ → Prop} {x : Except PyExc α} {y : Except PyExc β}
    {f : α → Except PyExc γ} {g : β → Except PyExc δ} (h : Matches R x y)
    (hfg : ∀ a b, R a b → Matches S (f a) (g b)) : Matches S (x >>= f) (y >>= g) := by
  cases h with
  | ok h => exact hfg _ _ h
  | error h => exact .error h

/-- A check that raises, and what follows where it does not. -/
theorem Matches.check {γ δ : Type} {S : γ → δ → Prop} (c : Bool) {e e' : PyExc} {f : Unit → Except PyExc γ}
    {g : Unit → Except PyExc δ} (he : Alike e e') (h : Matches S (f ()) (g ())) :
    Matches S (if c = true then throw e >>= f else f ()) (if c = true then throw e' >>= g else g ()) := by
  split
  · exact .error he
  · exact h

/-- The second result is the first with its dicts sorted. -/
def Sorts : Except PyExc Val → Except PyExc Val → Prop := Matches fun a b => b = a.sorted

theorem sorts_getD (v d : Val) (k : String) : Sorts (v.getD k d) (v.sorted.getD k d.sorted) := by
  have hitem := item?_sorted v k
  have htype := typeName_sorted v
  cases v with
  | dict items =>
    rw [sorted_dict] at hitem ⊢
    refine .ok ?_
    change (List.map _ _).lookup k = (items.lookup k).map Val.sorted at hitem
    rw [hitem]
    cases items.lookup k <;> rfl
  | list xs =>
    rw [sorted_list] at htype ⊢
    exact .error (Or.inl (by rw [htype]))
  | _ =>
    rw [sorted_scalar rfl]
    exact .error (Or.inl rfl)

theorem sorts_get (v : Val) (k : String) : Sorts (v.get k) (v.sorted.get k) := by
  have hnull : Val.null.sorted = .null := sorted_scalar rfl
  have h := sorts_getD v .null k
  rwa [hnull] at h

theorem sorts_subscript (v : Val) (k : String) : Sorts (v.subscript k) (v.sorted.subscript k) := by
  have hitem := item?_sorted v k
  cases v with
  | dict items =>
    rw [sorted_dict] at hitem ⊢
    change (List.map _ _).lookup k = (items.lookup k).map Val.sorted at hitem
    unfold Val.subscript
    simp only
    rw [hitem]
    cases items.lookup k with
    | none => exact .error (Or.inl rfl)
    | some x => exact .ok rfl
  | list xs =>
    rw [sorted_list]
    exact .error (Or.inl rfl)
  | _ =>
    rw [sorted_scalar rfl]
    exact .error (Or.inl rfl)

/-! ## The fields -/

/-- The second list of arguments is the first with its dicts sorted. -/
def SortsFields : Except PyExc (List (String × Val)) → Except PyExc (List (String × Val)) → Prop :=
  Matches fun kw kw' => kw' = kw.map fun p => (p.1, p.2.sorted)

theorem common_sorted (did commit record : Val) :
    SortsFields (common did commit record) (common did.sorted commit.sorted record.sorted) := by
  unfold common
  refine Matches.bind (sorts_subscript commit "rkey") ?_
  rintro rkey _ rfl
  refine Matches.bind (sorts_subscript commit "cid") ?_
  rintro cid _ rfl
  refine Matches.bind (sorts_subscript record "createdAt") ?_
  rintro t _ rfl
  exact .ok rfl

theorem reply_sorted (record : Val) (side : String) : Sorts (reply record side) (reply record.sorted side) := by
  have hnull : Val.null.sorted = .null := sorted_scalar rfl
  unfold reply
  refine Matches.bind (sorts_get record "reply") ?_
  rintro r _ rfl
  simp only [isDict_sorted]
  split
  · exact .ok hnull.symm
  refine Matches.bind (sorts_get r side) ?_
  rintro ref _ rfl
  simp only [isDict_sorted]
  split
  · exact .ok hnull.symm
  refine Matches.bind (sorts_get ref "uri") ?_
  rintro uri _ rfl
  -- a uri of another type counts as absent, sorted or not
  cases uri with
  | str s => rw [sorted_scalar rfl]; exact .ok (sorted_scalar rfl).symm
  | list xs => rw [sorted_list]; exact .ok hnull.symm
  | dict items => rw [sorted_dict]; exact .ok hnull.symm
  | _ => rw [sorted_scalar rfl]; exact .ok hnull.symm

theorem postFields_sorted (did commit record : Val) :
    SortsFields (postFields did commit record) (postFields did.sorted commit.sorted record.sorted) := by
  unfold postFields
  refine Matches.bind (common_sorted did commit record) ?_
  rintro base _ rfl
  refine Matches.bind (sorts_subscript record "text") ?_
  rintro text _ rfl
  refine Matches.bind (sorts_get record "langs") ?_
  rintro langs _ rfl
  refine Matches.bind (reply_sorted record "parent") ?_
  rintro parent _ rfl
  refine Matches.bind (reply_sorted record "root") ?_
  rintro root _ rfl
  exact .ok (by simp)

theorem likeFields_sorted (did commit record : Val) :
    SortsFields (likeFields did commit record) (likeFields did.sorted commit.sorted record.sorted) := by
  unfold likeFields
  refine Matches.bind (sorts_subscript record "subject") ?_
  rintro subject _ rfl
  refine Matches.bind (common_sorted did commit record) ?_
  rintro base _ rfl
  refine Matches.bind (sorts_subscript subject "uri") ?_
  rintro uri _ rfl
  refine Matches.bind (sorts_subscript subject "cid") ?_
  rintro cid _ rfl
  exact .ok (by simp)

theorem followFields_sorted (did commit record : Val) :
    SortsFields (followFields did commit record) (followFields did.sorted commit.sorted record.sorted) := by
  unfold followFields
  refine Matches.bind (common_sorted did commit record) ?_
  rintro base _ rfl
  refine Matches.bind (sorts_subscript record "subject") ?_
  rintro subject _ rfl
  exact .ok (by simp)

/-! ## The model -/

/-- What the code relies on of pydantic: no array and no object is a datetime. -/
def Host.DatetimeText (H : Host) : Prop := ∀ v : Val, v.scalar = false → H.parseDatetime v = none

theorem asOptStr?_sorted (v : Val) : v.sorted.asOptStr? = v.asOptStr? := by
  cases v with
  | dict items => rw [sorted_dict]; rfl
  | list xs => rw [sorted_list]; rfl
  | _ => rw [sorted_scalar rfl]

theorem asOptStrs?_sorted (v : Val) : v.sorted.asOptStrs? = v.asOptStrs? := by
  cases v with
  | dict items => rw [sorted_dict]; rfl
  | list xs =>
    have hstrs : (xs.map Val.sorted).mapM Val.asStr? = xs.mapM Val.asStr? := by
      rw [List.mapM_map]
      exact congrArg (List.mapM · xs) (funext asStr?_sorted)
    rw [sorted_list, Val.asOptStrs?, Val.asOptStrs?, hstrs]
  | _ => rw [sorted_scalar rfl]

theorem asDatetime?_sorted (hH : H.DatetimeText) (v : Val) : H.asDatetime? v.sorted = H.asDatetime? v := by
  cases v with
  | dict items =>
    rw [sorted_dict]
    exact (hH _ rfl).trans (hH _ rfl).symm
  | list xs =>
    rw [sorted_list]
    exact (hH _ rfl).trans (hH _ rfl).symm
  | _ => rw [sorted_scalar rfl]

theorem required_sorted {α : Type} {valid : Val → Option α} (h : ∀ v : Val, valid v.sorted = valid v)
    (kw : List (String × Val)) (name : String) :
    required valid (kw.map fun p => (p.1, p.2.sorted)) name = required valid kw name := by
  unfold required
  rw [lookup_map]
  cases kw.lookup name with
  | none => rfl
  | some v => exact h v

theorem optional_sorted {α : Type} {valid : Val → Option α} (h : ∀ v : Val, valid v.sorted = valid v)
    (kw : List (String × Val)) (name : String) :
    optional valid (kw.map fun p => (p.1, p.2.sorted)) name = optional valid kw name := by
  unfold optional
  rw [lookup_map]
  cases kw.lookup name with
  | none => rfl
  | some v => exact h v

theorem noExtra_sorted (names : List String) (kw : List (String × Val)) :
    noExtra names (kw.map fun p => (p.1, p.2.sorted)) = noExtra names kw := by
  unfold noExtra
  rw [List.all_map]
  rfl

theorem orReject_sorted {α : Type} (model : String) (kw kw' : List (String × Val)) (x : Option α) :
    Matches Eq (orReject model kw x) (orReject model kw' x) := by
  cases x with
  | none => exact .error (Or.inr ⟨rfl, Or.inr rfl⟩)
  | some m => exact .ok rfl

theorem eventBase?_sorted (hH : H.DatetimeText) (kw : List (String × Val)) :
    H.eventBase? (kw.map fun p => (p.1, p.2.sorted)) = H.eventBase? kw := by
  unfold Host.eventBase?
  simp only [required_sorted asStr?_sorted, required_sorted (asDatetime?_sorted hH)]

theorem bskyPost_sorted (hH : H.DatetimeText) (kw : List (String × Val)) :
    Matches Eq (H.bskyPost kw) (H.bskyPost (kw.map fun p => (p.1, p.2.sorted))) := by
  unfold Host.bskyPost
  simp only [noExtra_sorted, eventBase?_sorted hH, required_sorted asStr?_sorted, optional_sorted asOptStrs?_sorted,
    optional_sorted asOptStr?_sorted]
  exact orReject_sorted _ _ _ _

theorem bskyLike_sorted (hH : H.DatetimeText) (kw : List (String × Val)) :
    Matches Eq (H.bskyLike kw) (H.bskyLike (kw.map fun p => (p.1, p.2.sorted))) := by
  unfold Host.bskyLike
  simp only [noExtra_sorted, eventBase?_sorted hH, required_sorted asStr?_sorted]
  exact orReject_sorted _ _ _ _

theorem bskyFollow_sorted (hH : H.DatetimeText) (kw : List (String × Val)) :
    Matches Eq (H.bskyFollow kw) (H.bskyFollow (kw.map fun p => (p.1, p.2.sorted))) := by
  unfold Host.bskyFollow
  simp only [noExtra_sorted, eventBase?_sorted hH, required_sorted asStr?_sorted]
  exact orReject_sorted _ _ _ _

/-- **The same model, or an exception that is handled the same.** -/
theorem toModel_sorted (hH : H.DatetimeText) (event : Val) :
    Matches Eq (toModel H event) (toModel H event.sorted) := by
  have hvalue : ∀ s t : String, Alike (.valueError s) (.valueError t) := fun _ _ => Or.inr ⟨rfl, Or.inl rfl⟩
  unfold toModel
  refine Matches.bind (sorts_get event "kind") ?_
  rintro kind _ rfl
  rw [eqStr_sorted]
  refine Matches.check _ (hvalue _ _) ?_
  refine Matches.bind (sorts_get event "commit") ?_
  rintro commit _ rfl
  rw [isDict_sorted]
  refine Matches.check _ (hvalue _ _) ?_
  refine Matches.bind (sorts_get commit "operation") ?_
  rintro operation _ rfl
  rw [eqStr_sorted]
  refine Matches.check _ (hvalue _ _) ?_
  refine Matches.bind (sorts_get commit "record") ?_
  rintro record _ rfl
  rw [isDict_sorted]
  refine Matches.check _ (hvalue _ _) ?_
  refine Matches.bind (sorts_subscript event "did") ?_
  rintro did _ rfl
  refine Matches.bind (sorts_get commit "collection") ?_
  rintro collection _ rfl
  simp only [eqStr_sorted]
  split
  · refine Matches.bind (postFields_sorted did commit record) ?_
    rintro kw _ rfl
    refine Matches.bind (bskyPost_sorted hH kw) ?_
    rintro m _ rfl
    exact .ok rfl
  split
  · refine Matches.bind (likeFields_sorted did commit record) ?_
    rintro kw _ rfl
    refine Matches.bind (bskyLike_sorted hH kw) ?_
    rintro m _ rfl
    exact .ok rfl
  split
  · refine Matches.bind (followFields_sorted did commit record) ?_
    rintro kw _ rfl
    refine Matches.bind (bskyFollow_sorted hH kw) ?_
    rintro m _ rfl
    exact .ok rfl
  · exact .error (hvalue _ _)

/-! ## The calls -/

/-- The call with its label, the text of the collection, replaced. -/
def Call.relabel (f : String → String) : Call → Call
  | .produceDlq raw error topic => .produceDlq raw error (f topic)
  | .recordEvent collection => .recordEvent (f collection)
  | .recordDlq reason => .recordDlq (f reason)
  | call => call

theorem collectionIn_sorted (event : Val) : collectionIn event.sorted = (collectionIn event).sorted := by
  have hunknown : (Val.str "unknown").sorted = .str "unknown" := sorted_scalar rfl
  have hnull : Val.null.sorted = .null := sorted_scalar rfl
  have hcommit : (event.sorted.item? "commit").getD .null = ((event.item? "commit").getD .null).sorted := by
    rw [item?_sorted]
    cases event.item? "commit" with
    | none => exact hnull.symm
    | some v => rfl
  unfold collectionIn
  rw [hcommit, item?_sorted]
  cases ((event.item? "commit").getD .null).item? "collection" with
  | none => exact hunknown.symm
  | some v => rfl

/-- Exceptions that are alike are handled the same, and are the same where they reach a dead letter
or nobody. -/
theorem Alike.handled {e f : PyExc} (h : Alike e f) : firstHandler consumeHandlers f = firstHandler consumeHandlers e ∧
    (firstHandler consumeHandlers e = some .skip ∨ e = f) := by
  rcases h with rfl | ⟨hcls, hvalue⟩
  · exact ⟨rfl, Or.inr rfl⟩
  · constructor
    · unfold firstHandler
      rw [hcls]
    · left
      unfold firstHandler
      rcases hvalue with h | h <;> rw [h] <;> rfl

theorem timeUs_sorted (event : Val) : timeUs event.sorted = timeUs event := by
  unfold timeUs
  rw [item?_sorted]
  cases event.item? "time_us" with
  | none => rfl
  | some v => exact asInt?_sorted v

/-- **The same calls**, where the label does not tell the order of the keys. -/
theorem route_sorted (hH : H.DatetimeText) {f : String → String}
    (hf : f (H.str (collectionIn event).sorted) = f (H.str (collectionIn event))) :
    (route H event.sorted).map (List.map (Call.relabel f)) = (route H event).map (List.map (Call.relabel f)) := by
  have hpayload : serializeRaw event.sorted = serializeRaw event := dumps_sorted event
  by_cases hd : event.isDict = true
  · have hmodel := toModel_sorted hH event
    rw [route_dict hd, route_dict (by rw [isDict_sorted, hd]), collectionIn_sorted, timeUs_sorted, hpayload]
    generalize toModel H event = x at hmodel
    generalize toModel H event.sorted = y at hmodel
    cases hmodel with
    | @ok m m' hm =>
      obtain rfl := hm
      cases timeUs event with
      | none => simp [Except.map, Call.relabel, hf]
      | some t => simp [Except.map, Call.relabel, hf]
    | @error e e' he =>
      obtain ⟨hhandler, hsame⟩ := he.handled
      simp only [hhandler]
      rcases hsame with hskip | rfl
      · rw [hskip]
      · cases firstHandler consumeHandlers e with
        | none => rfl
        | some handler => cases handler <;> simp [Except.map, Call.relabel, hf]
  · have hget : ∀ v : Val, ¬ v.isDict = true → route H v = .error (.attributeError ("'" ++ v.typeName ++
        "' object has no attribute 'get'")) := by
      intro v hv
      cases v with
      | dict items => exact absurd rfl hv
      | _ => rfl
    rw [hget event hd, hget event.sorted (by rwa [isDict_sorted]), typeName_sorted]

theorem consumeCalls_sorted (hH : H.DatetimeText) {f : String → String}
    (hf : f (H.str (collectionIn event).sorted) = f (H.str (collectionIn event))) (now : ℤ) :
    (consumeCalls H event.sorted now).map (List.map (Call.relabel f)) =
      (consumeCalls H event now).map (List.map (Call.relabel f)) := by
  have hcalls : ∀ v, (consumeCalls H v now).map (List.map (Call.relabel f)) =
      ((route H v).map (List.map (Call.relabel f))).map (· ++ [.poll, .maybeSave now]) := by
    intro v
    unfold consumeCalls
    cases route H v with
    | error e => rfl
    | ok calls => simp [bind, Except.bind, pure, Except.pure, Except.map, Call.relabel]
  rw [hcalls, hcalls, route_sorted hH hf]

/-! ## The format -/

variable {repr : String → String} {raw : String}

/-- **A payload holds the event**: it is read back as the event with its dicts sorted by key, which
has the same payload, and two events with one payload differ in the order of keys alone. -/
theorem payload_reads_back (hrepr : StableRepr repr) (h : loads repr raw = some event) :
    loads repr (serializeRaw event) = some event.sorted ∧ serializeRaw event.sorted = serializeRaw event ∧
      ∀ {raw' : String} {event' : Val}, loads repr raw' = some event' →
        (serializeRaw event' = serializeRaw event ↔ event'.sorted = event.sorted) := by
  have hread := loads_dumps (loads_loaded hrepr h)
  refine ⟨hread, dumps_sorted event, fun {raw' event'} h' => ?_⟩
  have hread' := loads_dumps (loads_loaded hrepr h')
  constructor
  · intro htext
    rw [← serializeRaw, htext] at hread'
    exact Option.some.inj (hread'.symm.trans hread)
  · intro hsorted
    calc serializeRaw event' = event'.sorted.dumps := (dumps_sorted event').symm
      _ = event.sorted.dumps := by rw [hsorted]
      _ = serializeRaw event := dumps_sorted event

/-! ## Runs -/

namespace Proc

/-- `b` is `a` with the event, if it takes one, read from the payload of the first. -/
def Act.Replays (repr : String → String) : Act → Act → Prop
  | .recv event now, b => (∃ raw, loads repr raw = some event) ∧
      ∃ event', loads repr (serializeRaw event) = some event' ∧ b = .recv event' now
  | a, b => b = a

/-- The calls without their labels. -/
def unlabelled (calls : List Call) : List Call := calls.map (Call.relabel fun _ => "")

/-- Two processes that differ in the order of keys and the labels of calls. -/
structure Twin (p q : Proc) : Prop where
  cp : q.cp = p.cp
  todo : unlabelled q.todo = unlabelled p.todo
  draining : q.draining = p.draining
  inflight : q.inflight = p.inflight
  seen : q.seen = p.seen.map Val.sorted
  registered : q.registered = p.registered
  acked : q.acked = p.acked

variable {p q : Proc} {st : IngestSettings} {a b : Act}

theorem twin_refl_init (now : ℤ) : Twin (init now) (init now) := ⟨rfl, rfl, rfl, rfl, rfl, rfl, rfl⟩

/-- The calls still to be made correspond. -/
theorem Twin.nil (h : Twin p q) : q.todo = [] ↔ p.todo = [] := by
  have hlen := congrArg List.length h.todo
  rw [unlabelled, unlabelled, List.length_map, List.length_map] at hlen
  rw [← List.length_eq_zero_iff, ← List.length_eq_zero_iff, hlen]

theorem Twin.cons (h : Twin p q) {c : Call} {rest : List Call} (hp : p.todo = c :: rest) : ∃ c' rest',
    q.todo = c' :: rest' ∧ c'.relabel (fun _ => "") = c.relabel (fun _ => "") ∧ unlabelled rest' = unlabelled rest := by
  have htodo := h.todo
  rw [hp, unlabelled, unlabelled, List.map_cons] at htodo
  exact List.map_eq_cons_iff.1 htodo

theorem Twin.idle (h : Twin p q) : q.idle = p.idle := by
  have hiff : q.idle = true ↔ p.idle = true := by
    rw [idle_iff, idle_iff, h.nil, h.draining]
  exact Bool.eq_iff_iff.2 hiff

theorem Twin.drain (h : Twin p q) : Twin p.drain q.drain :=
  ⟨h.cp, rfl, rfl, h.inflight, h.seen, h.registered, h.acked⟩

theorem Twin.length_seen (h : Twin p q) : q.seen.length = p.seen.length := by
  rw [h.seen, List.length_map]

/-- A call has the same effect under another label. -/
theorem Twin.perform (h : Twin p q) {c c' : Call} (hc : c'.relabel (fun _ => "") = c.relabel fun _ => "") :
    Twin (p.perform st c) (q.perform st c') := by
  have hlen := h.length_seen
  have hreport : ∀ o, q.inflight ++ [⟨q.seen.length - 1, o⟩] = p.inflight ++ [⟨p.seen.length - 1, o⟩] := by
    intro o
    rw [h.inflight, hlen]
  cases c with
  | register t =>
    cases c' <;> cases hc
    exact ⟨by simp [Proc.perform, h.cp], h.todo, h.draining, h.inflight, h.seen,
      by simp [Proc.perform, h.registered, hlen], h.acked⟩
  | produce m t =>
    cases c' <;> cases hc
    exact ⟨h.cp, h.todo, h.draining, hreport _, h.seen, h.registered, h.acked⟩
  | produceDlq raw error topic =>
    cases c' <;> cases hc
    exact ⟨h.cp, h.todo, h.draining, hreport _, h.seen, h.registered, h.acked⟩
  | maybeSave now =>
    cases c' <;> cases hc
    exact ⟨by simp [Proc.perform, h.cp], h.todo, h.draining, h.inflight, h.seen, h.registered, h.acked⟩
  | finalSave =>
    cases c' <;> cases hc
    exact ⟨by simp [Proc.perform, h.cp], h.todo, h.draining, h.inflight, h.seen, h.registered, h.acked⟩
  | recordEvent | recordDlq | poll | flush =>
    cases c' <;> cases hc
    exact h

theorem Twin.deliver (h : Twin p q) (d : Delivery) (success : Bool) : Twin (p.deliver d success) (q.deliver d success) :=
  ⟨by simp only [Proc.deliver, h.cp], h.todo, h.draining, h.inflight, h.seen, h.registered,
    by simp only [Proc.deliver, h.acked]⟩

theorem services_relabel {c c' : Call} (hc : c'.relabel (fun _ => "") = c.relabel fun _ => "") :
    services c' = services c := by
  cases c <;> cases c' <;> first | rfl | cases hc

/-- **A step on the event that was read back** does what the step on the first event did. -/
theorem twin_step (hrepr : StableRepr repr) (hH : H.DatetimeText) (hab : a.Replays repr b) (h : Twin p q) :
    Twin (p.step H st a) (q.step H st b) := by
  have hidle := h.idle
  cases a with
  | recv event now =>
    obtain ⟨⟨raw, hraw⟩, event', hread, rfl⟩ := hab
    obtain rfl := Option.some.inj (hread.symm.trans (payload_reads_back hrepr hraw).1)
    have hcalls : (consumeCalls H event.sorted now).map unlabelled = (consumeCalls H event now).map unlabelled :=
      consumeCalls_sorted hH rfl now
    have hseen : q.seen ++ [event.sorted] = (p.seen ++ [event]).map Val.sorted := by
      rw [h.seen, List.map_append]
      rfl
    unfold Proc.step
    simp only [hidle]
    split
    · generalize consumeCalls H event now = x at hcalls
      generalize consumeCalls H event.sorted now = y at hcalls
      cases x with
      | error e =>
        cases y with
        | error e' => exact ⟨h.cp, rfl, rfl, h.inflight, hseen, h.registered, h.acked⟩
        | ok calls' => cases hcalls
      | ok calls =>
        cases y with
        | error e' => cases hcalls
        | ok calls' =>
          exact ⟨h.cp, Except.ok.inj hcalls, h.draining, h.inflight, hseen, h.registered, h.acked⟩
    · exact h
  | stop =>
    obtain rfl := hab
    unfold Proc.step
    simp only [hidle]
    split
    · exact h.drain
    · exact h
  | call =>
    obtain rfl := hab
    unfold Proc.step
    cases hp : p.todo with
    | nil => rw [h.nil.2 hp]; exact h
    | cons c rest =>
      obtain ⟨c', rest', hq, hc, hrest⟩ := h.cons hp
      rw [hq]
      have hpop : Twin { p with todo := rest } { q with todo := rest' } :=
        ⟨h.cp, hrest, h.draining, h.inflight, h.seen, h.registered, h.acked⟩
      exact hpop.perform hc
  | raise =>
    obtain rfl := hab
    unfold Proc.step
    cases hp : p.todo with
    | nil => rw [h.nil.2 hp]; exact h
    | cons c rest =>
      obtain ⟨c', rest', hq, -, -⟩ := h.cons hp
      rw [hq]
      simp only [h.draining]
      split
      · exact ⟨h.cp, rfl, rfl, h.inflight, h.seen, h.registered, h.acked⟩
      · exact h.drain
  | report i success =>
    obtain rfl := hab
    cases hp : p.todo with
    | nil =>
      rw [step_report_nil (h.nil.2 hp), step_report_nil hp]
      exact h
    | cons c rest =>
      obtain ⟨c', rest', hq, hc, -⟩ := h.cons hp
      rw [step_report_cons hp, step_report_cons hq, services_relabel hc, h.inflight]
      cases p.inflight[i]? with
      | none => exact h
      | some d =>
        have herase : Twin { p with inflight := p.inflight.eraseIdx i } { q with inflight := p.inflight.eraseIdx i } :=
          ⟨h.cp, h.todo, h.draining, rfl, h.seen, h.registered, h.acked⟩
        simp only [Option.map_some, Option.getD_some]
        split
        · exact herase.deliver d success
        · exact h

theorem Twin.saves (h : Twin p q) (hab : a.Replays repr b) : q.saves st b = p.saves st a := by
  have hkind : ∀ c : Act, c = .call ∨ c = .raise → q.saves st c = p.saves st c := by
    intro c hc
    cases hp : p.todo with
    | nil => rcases hc with rfl | rfl <;> simp only [Proc.saves, hp, h.nil.2 hp]
    | cons d rest =>
      obtain ⟨d', rest', hq, hd, -⟩ := h.cons hp
      have hcalls : q.saves st c = { q with todo := d :: rest }.saves st c := by
        rcases hc with rfl | rfl <;> simp only [Proc.saves, hq] <;> cases d <;> cases d' <;>
          first | rfl | cases hd
        all_goals rfl
      rw [hcalls]
      rcases hc with rfl | rfl <;> simp only [Proc.saves, hp, h.cp]
  cases a with
  | recv event now =>
    obtain ⟨-, event', -, rfl⟩ := hab
    rfl
  | stop =>
    obtain rfl := hab
    rfl
  | call =>
    obtain rfl := hab
    exact hkind _ (Or.inl rfl)
  | raise =>
    obtain rfl := hab
    exact hkind _ (Or.inr rfl)
  | report i success =>
    obtain rfl := hab
    rfl

/-- **A replay is the run again.** A process that takes, in place of its events, what is read from
their payloads, registers, sends, acks and saves what it did at every step. -/
theorem replay_run (hrepr : StableRepr repr) (hH : H.DatetimeText) (now : ℤ) {as bs : List Act}
    (hreplay : List.Forall₂ (Act.Replays repr) as bs) :
    Twin (Trace.run (step H st) (init now) as) (Trace.run (step H st) (init now) bs) ∧
      ∀ {a b : Act}, a.Replays repr b →
        (Trace.run (step H st) (init now) bs).saves st b = (Trace.run (step H st) (init now) as).saves st a := by
  have htwin : Twin (Trace.run (step H st) (init now) as) (Trace.run (step H st) (init now) bs) :=
    Trace.run_sim (fun _ _ _ _ hab h => twin_step hrepr hH hab h) (twin_refl_init now) hreplay
  exact ⟨htwin, fun hab => htwin.saves hab⟩

end Proc

/-! ## On a concrete frame -/

/-- A create commit without a `did`, its keys not in order. -/
def namelessFrame : String :=
  "\x7b\"kind\": \"commit\", \"commit\":\x7b\"record\":\x7b\"score\":0.5\x7d,\"operation\":\"create\"\x7d\x7d"

def namelessPayload : String :=
  "\x7b\"commit\":\x7b\"operation\":\"create\",\"record\":\x7b\"score\":0.5\x7d\x7d,\"kind\":\"commit\"\x7d"

theorem stable_id : StableRepr id := fun _ h => Or.inr (Or.inr ⟨h, rfl⟩)

theorem datetimeText_ascii : asciiHost.DatetimeText := by
  intro v hv
  cases v with
  | list | dict => rfl
  | _ => cases hv

theorem loads_nameless : ∃ event, loads id namelessFrame = some event ∧ serializeRaw event = namelessPayload := by
  have htext : (loads id namelessFrame).map serializeRaw = some namelessPayload := by decide +kernel
  exact Option.map_eq_some_iff.1 htext

theorem payload_reads_back_nameless : ∃ event, loads id namelessFrame = some event ∧
    loads id namelessPayload = some event.sorted := by
  obtain ⟨event, hload, htext⟩ := loads_nameless
  have hread := (payload_reads_back stable_id hload).1
  rw [htext] at hread
  exact ⟨event, hload, hread⟩

namespace Proc

/-- The dead letter of the frame is dead-lettered again. -/
theorem replay_run_nameless : ∃ event event', loads id namelessFrame = some event ∧
    loads id namelessPayload = some event' ∧
    (Trace.run (step asciiHost everyAck) (init 0) [.recv event 0, .call]).inflight = [⟨0, none⟩] ∧
    (Trace.run (step asciiHost everyAck) (init 0) [.recv event' 0, .call]).inflight = [⟨0, none⟩] := by
  have hsent : (loads id namelessFrame).map (fun event =>
      (Trace.run (step asciiHost everyAck) (init 0) [.recv event 0, .call]).inflight) = some [⟨0, none⟩] := by
    decide +kernel
  obtain ⟨event, hload, htext⟩ := loads_nameless
  have hread := loads_dumps (loads_loaded stable_id hload)
  have hreplay : List.Forall₂ (Act.Replays id) [.recv event 0, .call] [.recv event.sorted 0, .call] :=
    .cons ⟨⟨_, hload⟩, _, hread, rfl⟩ (.cons rfl .nil)
  have htwin : Twin (Trace.run (step asciiHost everyAck) _ _) _ := (replay_run stable_id datetimeText_ascii 0 hreplay).1
  rw [hload, Option.map_some, Option.some.injEq] at hsent
  refine ⟨event, event.sorted, hload, ?_, hsent, ?_⟩
  · rw [← htext]
    exact hread
  · exact htwin.inflight.trans hsent

end Proc

end BlueskyTrends
