import BlueskyTrends.Schemas

/-!
# Parsing a Jetstream event

`toModel` turns an event into a typed model, or raises: a `ValueError` for a shape
that is not ingested, a `KeyError` or `TypeError` for a record whose fields cannot
be read, a `ValidationError` for one whose fields have the wrong type.

* `toModel_create`: on a create commit of a known collection, the shape checks pass
  and the record's fields decide.
* `reply_ok`: the reply references never fail to read.
-/

namespace BlueskyTrends

/-- `BskyPost | BskyLike | BskyFollow`. -/
inductive Event where
  | post (m : BskyPost)
  | like (m : BskyLike)
  | follow (m : BskyFollow)
  deriving DecidableEq

/-- `_common`. -/
def common (did commit record : Val) : Except PyExc (List (String × Val)) := do
  -- in this order: the first missing key is the one reported
  let rkey ← commit.subscript "rkey"
  let cid ← commit.subscript "cid"
  let createdAt ← record.subscript "createdAt"
  return [("did", did), ("rkey", rkey), ("cid", cid), ("created_at", createdAt)]

/-- `_reply`. -/
def reply (record : Val) (side : String) : Except PyExc Val := do
  let reply ← record.get "reply"
  -- a reply, a reference or a uri of another type counts as absent
  if !reply.isDict then return .null
  let ref ← reply.get side
  if !ref.isDict then return .null
  let uri ← ref.get "uri"
  match uri with
  | .str s => return .str s
  | _ => return .null

/-- The arguments `to_model` passes to `BskyPost`. -/
def postFields (did commit record : Val) : Except PyExc (List (String × Val)) := do
  let base ← common did commit record
  let text ← record.subscript "text"
  let langs ← record.get "langs"
  let parent ← reply record "parent"
  let root ← reply record "root"
  return base ++ [("text", text), ("langs", langs), ("reply_parent", parent), ("reply_root", root)]

/-- The arguments `to_model` passes to `BskyLike`. -/
def likeFields (did commit record : Val) : Except PyExc (List (String × Val)) := do
  -- the subject is read before the common fields
  let subject ← record.subscript "subject"
  let base ← common did commit record
  let uri ← subject.subscript "uri"
  let cid ← subject.subscript "cid"
  return base ++ [("subject_uri", uri), ("subject_cid", cid)]

/-- The arguments `to_model` passes to `BskyFollow`. -/
def followFields (did commit record : Val) : Except PyExc (List (String × Val)) := do
  let base ← common did commit record
  let subject ← record.subscript "subject"
  return base ++ [("subject_did", subject)]

/-- `to_model`. -/
def toModel (H : Host) (event : Val) : Except PyExc Event := do
  let kind ← event.get "kind"
  if !kind.eqStr "commit" then
    throw (.valueError ("not a commit event: kind=" ++ H.repr kind))
  let commit ← event.get "commit"
  if !commit.isDict then
    throw (.valueError "commit event missing 'commit' object")
  let operation ← commit.get "operation"
  if !operation.eqStr "create" then
    throw (.valueError ("unsupported operation: " ++ H.repr operation))
  let record ← commit.get "record"
  if !record.isDict then
    throw (.valueError "commit missing 'record' object")
  -- `did` is subscripted before the collection is looked at
  let did ← event.subscript "did"
  let collection ← commit.get "collection"
  if collection.eqStr "app.bsky.feed.post" then
    let kw ← postFields did commit record
    return .post (← H.bskyPost kw)
  if collection.eqStr "app.bsky.feed.like" then
    let kw ← likeFields did commit record
    return .like (← H.bskyLike kw)
  if collection.eqStr "app.bsky.graph.follow" then
    let kw ← followFields did commit record
    return .follow (← H.bskyFollow kw)
  throw (.valueError ("unknown collection: " ++ H.repr collection))

/-! ## Create commits -/

/-- The three ingested record kinds. -/
inductive Kind where
  | post | like | follow
  deriving DecidableEq

def Kind.collection : Kind → String
  | .post => "app.bsky.feed.post"
  | .like => "app.bsky.feed.like"
  | .follow => "app.bsky.graph.follow"

/-- The model type. -/
def Event.kind : Event → Kind
  | .post _ => .post
  | .like _ => .like
  | .follow _ => .follow

/-- The arguments `to_model` passes to the model of kind `k`. -/
def fieldsOf : Kind → Val → Val → Val → Except PyExc (List (String × Val))
  | .post => postFields
  | .like => likeFields
  | .follow => followFields

/-- The model of kind `k`, built from `kw`. -/
def Host.build (H : Host) (kw : List (String × Val)) : Kind → Except PyExc Event
  | .post => Event.post <$> H.bskyPost kw
  | .like => Event.like <$> H.bskyLike kw
  | .follow => Event.follow <$> H.bskyFollow kw

/-- `event` is a commit event that creates `record` in the collection of `k`. -/
structure IsCreate (k : Kind) (event commit record : Val) : Prop where
  isCommit : event.item? "kind" = some (.str "commit")
  hasCommit : event.item? "commit" = some commit
  isCreate : commit.item? "operation" = some (.str "create")
  hasRecord : commit.item? "record" = some record
  recordDict : record.isDict = true
  inCollection : commit.item? "collection" = some (.str k.collection)

variable {H : Host} {k : Kind} {event commit record v x did : Val} {name : String}

theorem Val.get_item (h : v.item? name = some x) : v.get name = .ok x := by
  cases v with
  | dict items => simp_all [Val.get, Val.getD, Val.item?]
  | _ => simp [Val.item?] at h

theorem Val.getD_item (h : v.item? name = some x) (d : Val) : v.getD name d = .ok x := by
  cases v with
  | dict items => simp_all [Val.getD, Val.item?]
  | _ => simp [Val.item?] at h

theorem Val.isDict_item (h : v.item? name = some x) : v.isDict = true := by
  cases v with
  | dict items => rfl
  | _ => simp [Val.item?] at h

theorem Val.get_dict (h : v.isDict = true) (name : String) :
    v.get name = .ok ((v.item? name).getD .null) := by
  cases v with
  | dict items => rfl
  | _ => simp [Val.isDict] at h

/-- **On a create commit the record's fields decide**: the shape checks pass, and what is left
is reading the fields and building the model. -/
theorem toModel_create (h : IsCreate k event commit record) :
    toModel H event = (event.subscript "did").bind fun did =>
      (fieldsOf k did commit record).bind fun kw => H.build kw k := by
  have hc := Val.isDict_item h.isCreate
  -- the five shape checks evaluate to their passing branches
  simp only [toModel, Val.get_item h.isCommit, Val.get_item h.hasCommit, Val.get_item h.isCreate,
    Val.get_item h.hasRecord, Val.get_item h.inCollection, hc, h.recordDict, bind, Except.bind, pure,
    Except.pure,
    Val.eqStr, decide_true, Bool.not_true, Bool.false_eq_true, if_false]
  cases event.subscript "did" with
  | error e => rfl
  | ok did =>
    cases k with
    | post => rfl
    | like => rfl
    | follow => rfl

/-- `_reply` of a dict record is a string or `None`. -/
theorem reply_ok (h : record.isDict = true) (side : String) :
    ∃ v, reply record side = .ok v ∧ (v = .null ∨ ∃ s, v = .str s) := by
  simp only [reply, Val.get_dict h, bind, Except.bind, pure, Except.pure]
  split_ifs with h1
  · exact ⟨_, rfl, Or.inl rfl⟩
  rw [Val.get_dict (by simpa using h1)]
  simp only
  split_ifs with h2
  · exact ⟨_, rfl, Or.inl rfl⟩
  rw [Val.get_dict (by simpa using h2)]
  simp only
  split
  · exact ⟨_, rfl, Or.inr ⟨_, rfl⟩⟩
  · exact ⟨_, rfl, Or.inl rfl⟩

end BlueskyTrends
