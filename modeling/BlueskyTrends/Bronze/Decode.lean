import BlueskyTrends.Schemas

/-!
# Decoding a Kafka record

`decode_post`, `decode_like` and `decode_follow`: a deserialized record becomes a row of the
bronze table, or a `DlqRow`. The three differ in the model that validates and the row it
fills, and are `decodeRow` at their own values.

* `decodeRow_place`: a row carries the record's partition and offset and the clock reading.
* `decodeRow_reject`: whether a record is rejected, and how, is a matter of its content alone.
-/

namespace BlueskyTrends

/-- The Kafka provenance and the stamp every bronze row carries. -/
structure RowBase where
  kafkaPartition : ℤ
  kafkaOffset : ℕ
  ingestTs : ℤ
  deriving DecidableEq

structure BronzeRow extends RowBase where
  did : String
  rkey : String
  cid : String
  createdAt : DateTime
  text : String
  langs : List String
  replyParent : Option String
  replyRoot : Option String
  deriving DecidableEq

structure LikeRow extends RowBase where
  did : String
  rkey : String
  cid : String
  createdAt : DateTime
  subjectUri : String
  subjectCid : String
  deriving DecidableEq

structure FollowRow extends RowBase where
  did : String
  rkey : String
  cid : String
  createdAt : DateTime
  subjectDid : String
  deriving DecidableEq

/-- An undecodable record, wrapped for the dead-letter topic. -/
structure DlqRow where
  rawPayload : String
  error : String
  deriving DecidableEq

/-- `_safe_json`. `json.dumps` with `default=str` does not raise on the values modelled. -/
def safeJson (obj : Val) : String := obj.dumps

/-- `obj is None`. -/
def Val.isNone : Val → Bool
  | .null => true
  | _ => false

/-- The body of the three decoders: `None` is a tombstone or an undecodable payload, anything else
is validated by the model and fills a row. -/
def decodeRow {Model Row : Type} (H : Host) (model : String)
    (build : List (String × Val) → Except PyExc Model) (row : Model → RowBase → Row) (obj : Val)
    (base : RowBase) : Except DlqRow Row :=
  if obj.isNone then .error ⟨"null", "empty or undecodable Avro payload"⟩
  else match modelValidate model build obj with
    | .ok m => .ok (row m base)
    -- `model_validate` raises a `ValidationError`, which the `except` clause names
    | .error exc => .error ⟨safeJson obj, exc.cls.name ++ ": " ++ H.strExc exc⟩

/-- `decode_post`. -/
def decodePost (H : Host) : Val → RowBase → Except DlqRow BronzeRow :=
  decodeRow H "BskyPost" H.bskyPost fun post base => { base with
    did := post.did
    rkey := post.rkey
    cid := post.cid
    createdAt := post.createdAt
    text := post.text
    langs := post.langs.getD []
    replyParent := post.replyParent
    replyRoot := post.replyRoot }

/-- `decode_like`. -/
def decodeLike (H : Host) : Val → RowBase → Except DlqRow LikeRow :=
  decodeRow H "BskyLike" H.bskyLike fun like base => { base with
    did := like.did
    rkey := like.rkey
    cid := like.cid
    createdAt := like.createdAt
    subjectUri := like.subjectUri
    subjectCid := like.subjectCid }

/-- `decode_follow`. -/
def decodeFollow (H : Host) : Val → RowBase → Except DlqRow FollowRow :=
  decodeRow H "BskyFollow" H.bskyFollow fun follow base => { base with
    did := follow.did
    rkey := follow.rkey
    cid := follow.cid
    createdAt := follow.createdAt
    subjectDid := follow.subjectDid }

variable {Model Row : Type} {H : Host} {model : String} {build : List (String × Val) → Except PyExc Model}
  {mk : Model → RowBase → Row} {obj : Val} {base : RowBase} {r : Row} {d : DlqRow}

theorem decodeRow_place (toBase : Row → RowBase) (hmk : ∀ m b, toBase (mk m b) = b)
    (h : decodeRow H model build mk obj base = .ok r) : toBase r = base := by
  unfold decodeRow at h
  split at h
  · cases h
  · split at h
    · cases h; exact hmk _ _
    · cases h

theorem decodeRow_reject (h : decodeRow H model build mk obj base = .error d) (base' : RowBase) :
    decodeRow H model build mk obj base' = .error d := by
  unfold decodeRow at h ⊢
  by_cases hn : obj.isNone
  · rw [if_pos hn] at h ⊢; exact h
  · rw [if_neg hn] at h ⊢
    cases hv : modelValidate model build obj with
    | ok m => rw [hv] at h; cases h
    | error exc => rw [hv] at h; exact h

end BlueskyTrends
