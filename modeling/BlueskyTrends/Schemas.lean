import BlueskyTrends.Python

/-!
# Event models

The pydantic models of `schemas/models.py` and what their validation accepts:
lax mode, unknown fields forbidden, a field without default required. A
`ValidationError` carries the model's name and the input it rejected.
-/

namespace BlueskyTrends

/-- `_Event`: the identity fields shared by all record events. -/
structure EventBase where
  did : String
  rkey : String
  cid : String
  createdAt : DateTime
  deriving DecidableEq

structure BskyPost extends EventBase where
  text : String
  langs : Option (List String)
  replyParent : Option String
  replyRoot : Option String
  deriving DecidableEq

structure BskyLike extends EventBase where
  subjectUri : String
  subjectCid : String
  deriving DecidableEq

structure BskyFollow extends EventBase where
  subjectDid : String
  deriving DecidableEq

/-! ## Field validators -/

/-- `str`. -/
def Val.asStr? : Val → Option String
  | .str s => some s
  | _ => none

/-- `str | None`. -/
def Val.asOptStr? : Val → Option (Option String)
  | .null => some none
  | .str s => some (some s)
  | _ => none

/-- `list[str] | None`. -/
def Val.asOptStrs? : Val → Option (Option (List String))
  | .null => some none
  | .list xs => (xs.mapM Val.asStr?).map some
  | _ => none

/-- `datetime`. -/
def Host.asDatetime? (H : Host) : Val → Option DateTime
  | .datetime t => some t
  | v => H.parseDatetime v

/-- A required field. -/
def required {α : Type} (valid : Val → Option α) (kw : List (String × Val)) (name : String) : Option α :=
  (kw.lookup name).bind valid

/-- A field with default `None`. -/
def optional {α : Type} (valid : Val → Option α) (kw : List (String × Val)) (name : String) : Option α :=
  valid ((kw.lookup name).getD .null)

/-- `extra="forbid"`. -/
def noExtra (names : List String) (kw : List (String × Val)) : Bool :=
  kw.all fun p => p.1 ∈ names

/-- The model if validation built one, a `ValidationError` if it did not. -/
def orReject {α : Type} (model : String) (kw : List (String × Val)) : Option α → Except PyExc α
  | some m => .ok m
  | none => .error (.validationError model kw)

def Host.eventBase? (H : Host) (kw : List (String × Val)) : Option EventBase := do
  let did ← required Val.asStr? kw "did"
  let rkey ← required Val.asStr? kw "rkey"
  let cid ← required Val.asStr? kw "cid"
  let createdAt ← required H.asDatetime? kw "created_at"
  return { did, rkey, cid, createdAt }

/-- `BskyPost(**kw)`. -/
def Host.bskyPost (H : Host) (kw : List (String × Val)) : Except PyExc BskyPost :=
  orReject "BskyPost" kw do
    guard (noExtra ["did", "rkey", "cid", "created_at", "text", "langs", "reply_parent", "reply_root"] kw)
    let base ← H.eventBase? kw
    let text ← required Val.asStr? kw "text"
    let langs ← optional Val.asOptStrs? kw "langs"
    let replyParent ← optional Val.asOptStr? kw "reply_parent"
    let replyRoot ← optional Val.asOptStr? kw "reply_root"
    return { base with text, langs, replyParent, replyRoot }

/-- `BskyLike(**kw)`. -/
def Host.bskyLike (H : Host) (kw : List (String × Val)) : Except PyExc BskyLike :=
  orReject "BskyLike" kw do
    guard (noExtra ["did", "rkey", "cid", "created_at", "subject_uri", "subject_cid"] kw)
    let base ← H.eventBase? kw
    let subjectUri ← required Val.asStr? kw "subject_uri"
    let subjectCid ← required Val.asStr? kw "subject_cid"
    return { base with subjectUri, subjectCid }

/-- `BskyFollow(**kw)`. -/
def Host.bskyFollow (H : Host) (kw : List (String × Val)) : Except PyExc BskyFollow :=
  orReject "BskyFollow" kw do
    guard (noExtra ["did", "rkey", "cid", "created_at", "subject_did"] kw)
    let base ← H.eventBase? kw
    let subjectDid ← required Val.asStr? kw "subject_did"
    return { base with subjectDid }

/-- `Model.model_validate(obj)`: only a dict is an instance's input. -/
def modelValidate {α : Type} (model : String) (build : List (String × Val) → Except PyExc α) :
    Val → Except PyExc α
  | .dict items => build items
  | v => .error (.validationError model [("", v)])

end BlueskyTrends
