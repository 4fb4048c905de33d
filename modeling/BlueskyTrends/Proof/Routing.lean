import BlueskyTrends.Ingest.Loop

/-!
# Where the ingest loop sends an event

A create commit of an ingested collection goes to exactly one of `produce` and
`produce_dlq` unless all its fields can be read and one of them has the wrong type:
then `to_model` raises a `ValidationError`, which is a `ValueError`, and the first
`except` clause of the loop passes over the event.

* `fields_ok_iff`, `fields_error`: reading the fields fails exactly when one is missing,
  with a `KeyError` or a `TypeError`.
* `build_ok_iff`, `build_error`: building the model fails exactly when a field has the
  wrong type, with a `ValidationError`.
* `routed_iff`: the exact condition.
-/

namespace BlueskyTrends

variable {H : Host} {k : Kind} {event commit record : Val} {kw : List (String × Val)} {e : PyExc} {m : Event}

/-- The value, if there, is a string. -/
def isStr (v : Option Val) : Bool := (v.bind Val.asStr?).isSome

/-- Every field `to_model` subscripts is there; a like's subject is an object. -/
def HasFields (k : Kind) (event commit record : Val) : Prop :=
  (event.item? "did").isSome ∧ (commit.item? "rkey").isSome ∧ (commit.item? "cid").isSome ∧
  (record.item? "createdAt").isSome ∧
  match k with
  | .post => (record.item? "text").isSome
  | .like => ((record.item? "subject").bind (·.item? "uri")).isSome ∧
      ((record.item? "subject").bind (·.item? "cid")).isSome
  | .follow => (record.item? "subject").isSome

/-- The fields have the types of the model. -/
def WellTyped (H : Host) (k : Kind) (event commit record : Val) : Prop :=
  isStr (event.item? "did") ∧ isStr (commit.item? "rkey") ∧ isStr (commit.item? "cid") ∧
  ((record.item? "createdAt").bind H.asDatetime?).isSome ∧
  match k with
  | .post => isStr (record.item? "text") ∧ (((record.item? "langs").getD .null).asOptStrs?).isSome
  | .like => isStr ((record.item? "subject").bind (·.item? "uri")) ∧
      isStr ((record.item? "subject").bind (·.item? "cid"))
  | .follow => isStr (record.item? "subject")

/-- The fields of a create commit, as `to_model` reads them. -/
def readFields (k : Kind) (event commit record : Val) : Except PyExc (List (String × Val)) :=
  (event.subscript "did").bind fun did => fieldsOf k did commit record

theorem toModel_read (h : IsCreate k event commit record) :
    toModel H event = (readFields k event commit record).bind fun kw => H.build kw k := by
  rw [toModel_create h, readFields]
  cases event.subscript "did" <;> rfl

/-! ## Reading the fields -/

theorem common_ok {did : Val} :
    common did commit record = .ok kw ↔ ∃ rkey cid t, commit.item? "rkey" = some rkey ∧
      commit.item? "cid" = some cid ∧ record.item? "createdAt" = some t ∧
      kw = [("did", did), ("rkey", rkey), ("cid", cid), ("created_at", t)] := by
  simp only [common, bind, pure, Except.pure, bind_ok, Val.subscript_ok, Except.ok.injEq]
  constructor
  · rintro ⟨r, hr, c, hc, t, ht, rfl⟩; exact ⟨r, c, t, hr, hc, ht, rfl⟩
  · rintro ⟨r, c, t, hr, hc, ht, rfl⟩; exact ⟨r, hr, c, hc, t, ht, rfl⟩

theorem common_error {did : Val} (h : common did commit record = .error e) :
    e.cls = .keyError ∨ e.cls = .typeError := by
  simp only [common, bind, pure, Except.pure, bind_error] at h
  rcases h with h | ⟨_, -, h | ⟨_, -, h | ⟨_, -, h⟩⟩⟩
  · exact Val.subscript_error h
  · exact Val.subscript_error h
  · exact Val.subscript_error h
  · cases h

/-- What `to_model` passes to `BskyPost`. -/
theorem readFields_post (h : record.isDict = true) :
    readFields .post event commit record = .ok kw ↔ ∃ did rkey cid t text p r,
      (event.item? "did" = some did ∧ commit.item? "rkey" = some rkey ∧ commit.item? "cid" = some cid ∧
        record.item? "createdAt" = some t) ∧ record.item? "text" = some text ∧
      reply record "parent" = .ok p ∧ reply record "root" = .ok r ∧
      kw = [("did", did), ("rkey", rkey), ("cid", cid), ("created_at", t), ("text", text),
        ("langs", (record.item? "langs").getD .null), ("reply_parent", p), ("reply_root", r)] := by
  simp only [readFields, fieldsOf, postFields, bind, pure, Except.pure, bind_ok, Val.subscript_ok,
    common_ok, Val.get_dict h, Except.ok.injEq]
  constructor
  · rintro ⟨did, hd, -, ⟨rkey, cid, t, hr, hc, ht, rfl⟩, text, hx, -, rfl, p, hp, r, hq, rfl⟩
    exact ⟨did, rkey, cid, t, text, p, r, ⟨hd, hr, hc, ht⟩, hx, hp, hq, rfl⟩
  · rintro ⟨did, rkey, cid, t, text, p, r, ⟨hd, hr, hc, ht⟩, hx, hp, hq, rfl⟩
    exact ⟨did, hd, _, ⟨rkey, cid, t, hr, hc, ht, rfl⟩, text, hx, _, rfl, p, hp, r, hq, rfl⟩

/-- What `to_model` passes to `BskyLike`. -/
theorem readFields_like :
    readFields .like event commit record = .ok kw ↔ ∃ did rkey cid t subject uri scid,
      (event.item? "did" = some did ∧ commit.item? "rkey" = some rkey ∧ commit.item? "cid" = some cid ∧
        record.item? "createdAt" = some t) ∧ record.item? "subject" = some subject ∧
      subject.item? "uri" = some uri ∧ subject.item? "cid" = some scid ∧
      kw = [("did", did), ("rkey", rkey), ("cid", cid), ("created_at", t), ("subject_uri", uri),
        ("subject_cid", scid)] := by
  simp only [readFields, fieldsOf, likeFields, bind, pure, Except.pure, bind_ok, Val.subscript_ok,
    common_ok, Except.ok.injEq]
  constructor
  · rintro ⟨did, hd, subject, hs, -, ⟨rkey, cid, t, hr, hc, ht, rfl⟩, uri, hu, scid, hq, rfl⟩
    exact ⟨did, rkey, cid, t, subject, uri, scid, ⟨hd, hr, hc, ht⟩, hs, hu, hq, rfl⟩
  · rintro ⟨did, rkey, cid, t, subject, uri, scid, ⟨hd, hr, hc, ht⟩, hs, hu, hq, rfl⟩
    exact ⟨did, hd, subject, hs, _, ⟨rkey, cid, t, hr, hc, ht, rfl⟩, uri, hu, scid, hq, rfl⟩

/-- What `to_model` passes to `BskyFollow`. -/
theorem readFields_follow :
    readFields .follow event commit record = .ok kw ↔ ∃ did rkey cid t subject,
      (event.item? "did" = some did ∧ commit.item? "rkey" = some rkey ∧ commit.item? "cid" = some cid ∧
        record.item? "createdAt" = some t) ∧ record.item? "subject" = some subject ∧
      kw = [("did", did), ("rkey", rkey), ("cid", cid), ("created_at", t), ("subject_did", subject)] := by
  simp only [readFields, fieldsOf, followFields, bind, pure, Except.pure, bind_ok, Val.subscript_ok,
    common_ok, Except.ok.injEq]
  constructor
  · rintro ⟨did, hd, -, ⟨rkey, cid, t, hr, hc, ht, rfl⟩, subject, hs, rfl⟩
    exact ⟨did, rkey, cid, t, subject, ⟨hd, hr, hc, ht⟩, hs, rfl⟩
  · rintro ⟨did, rkey, cid, t, subject, ⟨hd, hr, hc, ht⟩, hs, rfl⟩
    exact ⟨did, hd, _, ⟨rkey, cid, t, hr, hc, ht, rfl⟩, subject, hs, rfl⟩

/-- **The fields can be read exactly when they are there.** -/
theorem fields_ok_iff (h : IsCreate k event commit record) :
    (∃ kw, readFields k event commit record = .ok kw) ↔ HasFields k event commit record := by
  simp only [HasFields, Option.isSome_iff_exists]
  cases k with
  | post =>
    obtain ⟨p, hp, -⟩ := reply_ok h.recordDict "parent"
    obtain ⟨r, hr, -⟩ := reply_ok h.recordDict "root"
    simp only [readFields_post h.recordDict]
    constructor
    · rintro ⟨-, did, rkey, cid, t, text, -, -, ⟨h1, h2, h3, h4⟩, h5, -⟩
      exact ⟨⟨did, h1⟩, ⟨rkey, h2⟩, ⟨cid, h3⟩, ⟨t, h4⟩, ⟨text, h5⟩⟩
    · rintro ⟨⟨did, h1⟩, ⟨rkey, h2⟩, ⟨cid, h3⟩, ⟨t, h4⟩, ⟨text, h5⟩⟩
      exact ⟨_, did, rkey, cid, t, text, p, r, ⟨h1, h2, h3, h4⟩, h5, hp, hr, rfl⟩
  | like =>
    simp only [readFields_like, Option.bind_eq_some_iff]
    constructor
    · rintro ⟨-, did, rkey, cid, t, s, uri, scid, ⟨h1, h2, h3, h4⟩, h5, h6, h7, -⟩
      exact ⟨⟨did, h1⟩, ⟨rkey, h2⟩, ⟨cid, h3⟩, ⟨t, h4⟩, ⟨uri, s, h5, h6⟩, ⟨scid, s, h5, h7⟩⟩
    · rintro ⟨⟨did, h1⟩, ⟨rkey, h2⟩, ⟨cid, h3⟩, ⟨t, h4⟩, ⟨uri, s, h5, h6⟩, ⟨scid, s', h5', h7⟩⟩
      obtain rfl : s = s' := Option.some.inj (h5.symm.trans h5')
      exact ⟨_, did, rkey, cid, t, s, uri, scid, ⟨h1, h2, h3, h4⟩, h5, h6, h7, rfl⟩
  | follow =>
    simp only [readFields_follow]
    constructor
    · rintro ⟨-, did, rkey, cid, t, s, ⟨h1, h2, h3, h4⟩, h5, -⟩
      exact ⟨⟨did, h1⟩, ⟨rkey, h2⟩, ⟨cid, h3⟩, ⟨t, h4⟩, ⟨s, h5⟩⟩
    · rintro ⟨⟨did, h1⟩, ⟨rkey, h2⟩, ⟨cid, h3⟩, ⟨t, h4⟩, ⟨s, h5⟩⟩
      exact ⟨_, did, rkey, cid, t, s, ⟨h1, h2, h3, h4⟩, h5, rfl⟩

/-- **A field that cannot be read raises a `KeyError` or a `TypeError`.** -/
theorem fields_error (h : IsCreate k event commit record)
    (he : readFields k event commit record = .error e) :
    e.cls = .keyError ∨ e.cls = .typeError := by
  simp only [readFields, bind_error] at he
  rcases he with he | ⟨did, -, he⟩
  · exact Val.subscript_error he
  cases k with
  | post =>
    obtain ⟨p, hp, -⟩ := reply_ok h.recordDict "parent"
    obtain ⟨r, hr, -⟩ := reply_ok h.recordDict "root"
    simp only [fieldsOf, postFields, bind, pure, Except.pure, bind_error, Val.get_dict h.recordDict,
      hp, hr, reduceCtorEq, and_false, exists_false, or_false] at he
    rcases he with he | ⟨_, -, he⟩
    · exact common_error he
    · exact Val.subscript_error he
  | like =>
    simp only [fieldsOf, likeFields, bind, pure, Except.pure, bind_error, reduceCtorEq, and_false,
      exists_false, or_false] at he
    rcases he with he | ⟨_, -, he | ⟨_, -, he | ⟨_, -, he⟩⟩⟩
    · exact Val.subscript_error he
    · exact common_error he
    · exact Val.subscript_error he
    · exact Val.subscript_error he
  | follow =>
    simp only [fieldsOf, followFields, bind, pure, Except.pure, bind_error, reduceCtorEq, and_false,
      exists_false, or_false] at he
    rcases he with he | ⟨_, -, he⟩
    · exact common_error he
    · exact Val.subscript_error he

/-! ## Building the model -/

theorem map_orReject_ok {α : Type} {f : α → Event} {model : String} {x : Option α} :
    (∃ m, f <$> orReject model kw x = .ok m) ↔ x.isSome := by
  cases x <;> simp [orReject, Functor.map, Except.map]

theorem reply_optStr {side : String} {p : Val} (h : record.isDict = true)
    (hp : reply record side = .ok p) :
    ∃ o, p.asOptStr? = some o := by
  obtain ⟨v, hv, hs⟩ := reply_ok h side
  obtain rfl : v = p := Except.ok.inj (hv.symm.trans hp)
  rcases hs with rfl | ⟨s, rfl⟩
  · exact ⟨none, rfl⟩
  · exact ⟨some s, rfl⟩

/-- **The model is built exactly when the fields have its types.** -/
theorem build_ok_iff (h : IsCreate k event commit record)
    (hr : readFields k event commit record = .ok kw) :
    (∃ m, H.build kw k = .ok m) ↔ WellTyped H k event commit record := by
  cases k with
  | post =>
    obtain ⟨did, rkey, cid, t, text, p, r, ⟨h1, h2, h3, h4⟩, h5, hp, hq, rfl⟩ :=
      (readFields_post h.recordDict).1 hr
    obtain ⟨po, hpo⟩ := reply_optStr h.recordDict hp
    obtain ⟨ro, hro⟩ := reply_optStr h.recordDict hq
    simp only [Host.build, Host.bskyPost, map_orReject_ok, WellTyped, isStr, h1, h2, h3, h4, h5,
      Option.bind_some]
    simp [Host.eventBase?, required, optional, noExtra, List.lookup_cons, hpo, hro,
      Option.isSome_iff_exists, Option.bind_eq_some_iff, and_assoc]
  | like =>
    obtain ⟨did, rkey, cid, t, s, uri, scid, ⟨h1, h2, h3, h4⟩, h5, h6, h7, rfl⟩ := readFields_like.1 hr
    simp only [Host.build, Host.bskyLike, map_orReject_ok, WellTyped, isStr, h1, h2, h3, h4, h5, h6, h7,
      Option.bind_some]
    simp [Host.eventBase?, required, noExtra, List.lookup_cons, Option.isSome_iff_exists,
      Option.bind_eq_some_iff, and_assoc]
  | follow =>
    obtain ⟨did, rkey, cid, t, s, ⟨h1, h2, h3, h4⟩, h5, rfl⟩ := readFields_follow.1 hr
    simp only [Host.build, Host.bskyFollow, map_orReject_ok, WellTyped, isStr, h1, h2, h3, h4, h5,
      Option.bind_some]
    simp [Host.eventBase?, required, noExtra, List.lookup_cons, Option.isSome_iff_exists,
      Option.bind_eq_some_iff, and_assoc]

/-- **A field of the wrong type raises a `ValidationError`.** -/
theorem build_error (he : H.build kw k = .error e) : e.cls = .validationError := by
  have key : ∀ {α : Type} {f : α → Event} {model : String} {x : Option α},
      f <$> orReject model kw x = .error e → e.cls = .validationError := by
    intro α f model x hx
    cases x with
    | some a => cases hx
    | none => cases hx; rfl
  cases k with
  | post => exact key he
  | like => exact key he
  | follow => exact key he

theorem build_kind (hm : H.build kw k = .ok m) : m.kind = k := by
  have key : ∀ {α : Type} {f : α → Event} {x : Except PyExc α}, f <$> x = .ok m → ∃ a, m = f a := by
    intro α f x hx
    cases x with
    | ok a => cases hx; exact ⟨a, rfl⟩
    | error e => cases hx
  cases k with
  | post => obtain ⟨a, rfl⟩ := key hm; rfl
  | like => obtain ⟨a, rfl⟩ := key hm; rfl
  | follow => obtain ⟨a, rfl⟩ := key hm; rfl

/-! ## Routing -/

/-- A call that hands the event to Kafka. -/
def Call.isSend : Call → Bool
  | .produce _ _ | .produceDlq _ _ _ => true
  | _ => false

/-- The calls among `produce` and `produce_dlq`. -/
def sends (calls : List Call) : List Call := calls.filter Call.isSend

/-- The event, a create of kind `k`, is sent exactly once: as a model of that kind with its
`time_us` when it has both, as a dead letter when not. -/
def RoutedOnce (H : Host) (k : Kind) (event : Val) (now : ℤ) : Prop :=
  ∃ calls, consumeCalls H event now = .ok calls ∧
    match toModel H event, timeUs event with
    | .ok m, some t => m.kind = k ∧ sends calls = [.produce m t]
    | _, _ => ∃ raw error topic, sends calls = [.produceDlq raw error topic]

/-- `ValidationError` is a `ValueError`: the first clause takes it. -/
theorem handler_validation (h : e.cls = .validationError) :
    firstHandler consumeHandlers e = some .skip := by
  unfold firstHandler; rw [h]; rfl

theorem handler_read (h : e.cls = .keyError ∨ e.cls = .typeError) :
    firstHandler consumeHandlers e = some .deadLetter := by
  unfold firstHandler; rcases h with h | h <;> rw [h] <;> rfl

/-- What the loop looks up in a create commit, before and after `to_model`. -/
theorem route_create (h : IsCreate k event commit record) :
    ∃ cursor, event.get "time_us" = .ok cursor ∧ cursor.asInt? = timeUs event ∧
      event.get "commit" = .ok commit ∧ commit.isDict = true ∧
      commit.getD "collection" (.str "unknown") = .ok (.str k.collection) := by
  have hcur := Val.get_dict (Val.isDict_item h.isCommit) "time_us"
  exact ⟨_, hcur, timeUs_eq hcur, Val.get_item h.hasCommit, Val.isDict_item h.isCreate,
    Val.getD_item h.inCollection _⟩

/-- A create commit rejected by `to_model`, by the clause that takes the exception. -/
theorem calls_rejected (h : IsCreate k event commit record) (he : toModel H event = .error e) (now : ℤ) :
    (firstHandler consumeHandlers e = some .skip →
      consumeCalls H event now = .ok [.poll, .maybeSave now]) ∧
    (firstHandler consumeHandlers e = some .deadLetter →
      consumeCalls H event now = .ok [.produceDlq (serializeRaw event) (H.reprExc e) k.collection,
        .recordDlq k.collection, .poll, .maybeSave now]) := by
  obtain ⟨cursor, h1, -, h2, h3, h4⟩ := route_create h
  constructor <;> intro hh <;>
    simp only [consumeCalls, route, collectionOf, bind, Except.bind, pure, Except.pure, h1, h2, h3, h4,
      he, hh, if_true, Host.str] <;> rfl

/-- A create commit accepted by `to_model`. -/
theorem calls_accepted (h : IsCreate k event commit record) (hm : toModel H event = .ok m) (now : ℤ) :
    (timeUs event = none →
      consumeCalls H event now = .ok [.produceDlq (serializeRaw event) "missing or non-int time_us" k.collection,
        .recordDlq "missing_time_us", .poll, .maybeSave now]) ∧
    ∀ t, timeUs event = some t →
      consumeCalls H event now = .ok [.register t, .produce m t, .recordEvent k.collection, .poll,
        .maybeSave now] := by
  obtain ⟨cursor, h1, ht, h2, h3, h4⟩ := route_create h
  constructor
  · intro hn
    simp only [consumeCalls, route, collectionOf, bind, Except.bind, pure, Except.pure, h1, h2, h3, h4,
      hm, ht, hn, if_true, Host.str]; rfl
  · intro t hs
    simp only [consumeCalls, route, collectionOf, bind, Except.bind, pure, Except.pure, h1, h2, h3, h4,
      hm, ht, hs, if_true, Host.str]; rfl

/-- **Exactly one send, exactly when** no readable record has a field of the wrong type. -/
theorem routed_iff (h : IsCreate k event commit record) (now : ℤ) :
    RoutedOnce H k event now ↔
      (HasFields k event commit record → WellTyped H k event commit record) := by
  have hread := toModel_read (H := H) h
  unfold RoutedOnce
  cases hr : readFields k event commit record with
  | error exc =>
    -- a missing field: the dead-letter clause, whatever the types of the others
    rw [hr] at hread
    have hread : toModel H event = .error exc := hread
    have hno : ¬ HasFields k event commit record := by
      rw [← fields_ok_iff h, hr]; rintro ⟨_, hk⟩; cases hk
    have hcalls := (calls_rejected h hread now).2 (handler_read (fields_error h hr))
    refine ⟨fun _ hyes => absurd hyes hno, fun _ => ⟨_, hcalls, ?_⟩⟩
    rw [hread]; exact ⟨_, _, _, rfl⟩
  | ok kw =>
    have hyes := (fields_ok_iff h).1 ⟨kw, hr⟩
    have hbuild := build_ok_iff (H := H) h hr
    rw [hr] at hread
    have hread : toModel H event = H.build kw k := hread
    cases hb : H.build kw k with
    | error exc =>
      -- a field of the wrong type: the first clause takes the `ValidationError`
      have hno : ¬ WellTyped H k event commit record := by
        rw [← hbuild, hb]; rintro ⟨_, hk⟩; cases hk
      rw [hb] at hread
      have hcalls := (calls_rejected h hread now).1 (handler_validation (build_error hb))
      refine ⟨?_, fun hw => absurd (hw hyes) hno⟩
      rintro ⟨calls, hc, hs⟩
      obtain rfl : _ = calls := Except.ok.inj (hcalls.symm.trans hc)
      rw [hread] at hs
      obtain ⟨raw, error, topic, hs⟩ := hs
      cases hs
    | ok m =>
      have hwell := hbuild.1 ⟨m, hb⟩
      rw [hb] at hread
      refine ⟨fun _ _ => hwell, fun _ => ?_⟩
      cases ht : timeUs event with
      | none => exact ⟨_, (calls_accepted h hread now).1 ht, by rw [hread]; exact ⟨_, _, _, rfl⟩⟩
      | some t =>
        exact ⟨_, (calls_accepted h hread now).2 t ht, by rw [hread]; exact ⟨build_kind hb, rfl⟩⟩

/-! ## On concrete events -/

/-- A post create commit with the given `text`. -/
def postCommit (text : Val) : Val := .dict [("operation", .str "create"),
  ("collection", .str "app.bsky.feed.post"), ("rkey", .str "3kpostrkey"), ("cid", .str "bafypost"),
  ("record", .dict [("createdAt", .str "2024-01-01T00:00:00.000Z"), ("text", text)])]

def postEvent (timeUs : ℤ) (text : Val) : Val := .dict [("did", .str "did:plc:author123"),
  ("time_us", .int timeUs), ("kind", .str "commit"), ("commit", postCommit text)]

theorem postEvent_create (t : ℤ) (text : Val) : IsCreate .post (postEvent t text) (postCommit text)
    (.dict [("createdAt", .str "2024-01-01T00:00:00.000Z"), ("text", text)]) :=
  ⟨rfl, rfl, rfl, rfl, rfl, rfl⟩

/-- A well-formed post is produced. -/
theorem routed_iff_post :
    RoutedOnce asciiHost .post (postEvent 1700000000000001 (.str "hello bluesky")) 0 :=
  (routed_iff (postEvent_create _ _) 0).2 fun _ => ⟨rfl, rfl, rfl, rfl, rfl, rfl⟩

/-- **A post whose text is a number is neither produced nor dead-lettered.** -/
theorem wrong_text_dropped :
    consumeCalls asciiHost (postEvent 1700000000000001 (.int 5)) 0 = .ok [.poll, .maybeSave 0] ∧
      ¬ RoutedOnce asciiHost .post (postEvent 1700000000000001 (.int 5)) 0 := by
  have hcalls : consumeCalls asciiHost (postEvent 1700000000000001 (.int 5)) 0 =
    .ok [.poll, .maybeSave 0] := rfl
  refine ⟨hcalls, ?_⟩
  rintro ⟨calls, hc, hs⟩
  obtain rfl : _ = calls := Except.ok.inj (hcalls.symm.trans hc)
  obtain ⟨raw, error, topic, hs⟩ := hs
  cases hs

end BlueskyTrends
