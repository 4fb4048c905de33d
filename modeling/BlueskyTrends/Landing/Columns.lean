import BlueskyTrends.Landing.Load
import BlueskyTrends.Lib.Columns

/-!
# From rows to columns and back

A batch is materialised as an arrow table, one list a column; a landing run is handed such a table and inserts it in
blocks of tuples. `Layout` is what the three event types differ in, with what makes their columns line up.
pyarrow's tables are lists of columns, their values those put in.
-/

namespace BlueskyTrends

open Columns

/-! ## Columns -/

/-- `BRONZE_COLUMNS`. -/
def bronzeColumns : List String := ["did", "rkey", "cid", "created_at", "text", "langs", "reply_parent",
  "reply_root", "kafka_partition", "kafka_offset", "ingest_ts"]

/-- `BRONZE_COLUMNS_LIKES`. -/
def bronzeColumnsLikes : List String := ["did", "rkey", "cid", "created_at", "subject_uri", "subject_cid",
  "kafka_partition", "kafka_offset", "ingest_ts"]

/-- `BRONZE_COLUMNS_FOLLOWS`. -/
def bronzeColumnsFollows : List String := ["did", "rkey", "cid", "created_at", "subject_did",
  "kafka_partition", "kafka_offset", "ingest_ts"]

/-- The names of `bronze_arrow_schema`. -/
def bronzeArrowSchema : List String := ["did", "rkey", "cid", "created_at", "text", "langs", "reply_parent",
  "reply_root", "kafka_partition", "kafka_offset", "ingest_ts"]

/-- The names of `likes_arrow_schema`. -/
def likesArrowSchema : List String := ["did", "rkey", "cid", "created_at", "subject_uri", "subject_cid",
  "kafka_partition", "kafka_offset", "ingest_ts"]

/-- The names of `follows_arrow_schema`. -/
def followsArrowSchema : List String := ["did", "rkey", "cid", "created_at", "subject_did",
  "kafka_partition", "kafka_offset", "ingest_ts"]

/-! ## Values -/

/-- `str | None`. -/
def optStr : Option String → Val
  | some s => .str s
  | none => .null

/-- A timestamp in microseconds, as the datetime it is in a row. -/
def timestamp (us : ℤ) : Val := .datetime ⟨us, some 0⟩

/-- `getattr(row, name)`. -/
def BronzeRow.getattr (name : String) (r : BronzeRow) : Val :=
  match name with
  | "did" => .str r.did
  | "rkey" => .str r.rkey
  | "cid" => .str r.cid
  | "created_at" => .datetime r.createdAt
  | "text" => .str r.text
  | "langs" => .list (r.langs.map .str)
  | "reply_parent" => optStr r.replyParent
  | "reply_root" => optStr r.replyRoot
  | "kafka_partition" => .int r.kafkaPartition
  | "kafka_offset" => .int r.kafkaOffset
  | "ingest_ts" => timestamp r.ingestTs
  | _ => .null

/-- `getattr(row, name)`. -/
def LikeRow.getattr (name : String) (r : LikeRow) : Val :=
  match name with
  | "did" => .str r.did
  | "rkey" => .str r.rkey
  | "cid" => .str r.cid
  | "created_at" => .datetime r.createdAt
  | "subject_uri" => .str r.subjectUri
  | "subject_cid" => .str r.subjectCid
  | "kafka_partition" => .int r.kafkaPartition
  | "kafka_offset" => .int r.kafkaOffset
  | "ingest_ts" => timestamp r.ingestTs
  | _ => .null

/-- `getattr(row, name)`. -/
def FollowRow.getattr (name : String) (r : FollowRow) : Val :=
  match name with
  | "did" => .str r.did
  | "rkey" => .str r.rkey
  | "cid" => .str r.cid
  | "created_at" => .datetime r.createdAt
  | "subject_did" => .str r.subjectDid
  | "kafka_partition" => .int r.kafkaPartition
  | "kafka_offset" => .int r.kafkaOffset
  | "ingest_ts" => timestamp r.ingestTs
  | _ => .null

/-! ## Materialisation -/

/-- The appends of `BronzeBatch.to_arrow` for a row: to which column, and what. -/
def BronzeRow.appends : List (String × (BronzeRow → Val)) := [
  ("did", fun r => .str r.did),
  ("rkey", fun r => .str r.rkey),
  ("cid", fun r => .str r.cid),
  ("created_at", fun r => .datetime r.createdAt),
  ("text", fun r => .str r.text),
  ("langs", fun r => .list (r.langs.map .str)),
  ("reply_parent", fun r => optStr r.replyParent),
  ("reply_root", fun r => optStr r.replyRoot),
  ("kafka_partition", fun r => .int r.kafkaPartition),
  ("kafka_offset", fun r => .int r.kafkaOffset),
  ("ingest_ts", fun r => timestamp r.ingestTs)]

/-- The appends of `LikesBatch.to_arrow`. -/
def LikeRow.appends : List (String × (LikeRow → Val)) := [
  ("did", fun r => .str r.did),
  ("rkey", fun r => .str r.rkey),
  ("cid", fun r => .str r.cid),
  ("created_at", fun r => .datetime r.createdAt),
  ("subject_uri", fun r => .str r.subjectUri),
  ("subject_cid", fun r => .str r.subjectCid),
  ("kafka_partition", fun r => .int r.kafkaPartition),
  ("kafka_offset", fun r => .int r.kafkaOffset),
  ("ingest_ts", fun r => timestamp r.ingestTs)]

/-- The appends of `FollowsBatch.to_arrow`. -/
def FollowRow.appends : List (String × (FollowRow → Val)) := [
  ("did", fun r => .str r.did),
  ("rkey", fun r => .str r.rkey),
  ("cid", fun r => .str r.cid),
  ("created_at", fun r => .datetime r.createdAt),
  ("subject_did", fun r => .str r.subjectDid),
  ("kafka_partition", fun r => .int r.kafkaPartition),
  ("kafka_offset", fun r => .int r.kafkaOffset),
  ("ingest_ts", fun r => timestamp r.ingestTs)]

/-- What materialisation and landing of an event type are made of: the columns of the arrow schema, the appends of
`to_arrow`, the column order of the landing. Every column is appended to once for a row, and from the attribute of its
name; the landing reads columns of the schema, `created_at` among them. -/
structure Layout (Row : Type) where
  schema : List String
  appends : List (String × (Row → Val))
  columns : List String
  getattr : String → Row → Val
  createdAt : Row → DateTime
  nodup : schema.Nodup
  filled : (appends.map Prod.fst).Perm schema
  own : ∀ a ∈ appends, a.2 = getattr a.1
  projected : ∀ c ∈ columns, c ∈ schema
  dated : "created_at" ∈ columns
  created : ∀ r, getattr "created_at" r = .datetime (createdAt r)

def postsLayout : Layout BronzeRow where
  schema := bronzeArrowSchema
  appends := BronzeRow.appends
  columns := bronzeColumns
  getattr := BronzeRow.getattr
  createdAt := BronzeRow.createdAt
  nodup := by decide
  filled := List.Perm.refl _
  own := by
    intro a ha
    fin_cases ha <;> rfl
  projected := by decide
  dated := by decide
  created _ := rfl

def likesLayout : Layout LikeRow where
  schema := likesArrowSchema
  appends := LikeRow.appends
  columns := bronzeColumnsLikes
  getattr := LikeRow.getattr
  createdAt := LikeRow.createdAt
  nodup := by decide
  filled := List.Perm.refl _
  own := by
    intro a ha
    fin_cases ha <;> rfl
  projected := by decide
  dated := by decide
  created _ := rfl

def followsLayout : Layout FollowRow where
  schema := followsArrowSchema
  appends := FollowRow.appends
  columns := bronzeColumnsFollows
  getattr := FollowRow.getattr
  createdAt := FollowRow.createdAt
  nodup := by decide
  filled := List.Perm.refl _
  own := by
    intro a ha
    fin_cases ha <;> rfl
  projected := by decide
  dated := by decide
  created _ := rfl

/-- `columns[name].append(x)`. -/
def appendTo (columns : List (String × List Val)) (name : String) (x : Val) :
    Except PyExc (List (String × List Val)) :=
  if name ∈ columns.map Prod.fst then
    .ok (columns.map fun c => if c.1 = name then (c.1, c.2 ++ [x]) else c)
  else .error (.keyError name)

/-- `columns[name]`. -/
def columnAt (columns : List (String × List Val)) (name : String) : Except PyExc (List Val) :=
  match columns.lookup name with
  | some column => .ok column
  | none => .error (.keyError name)

/-- `pa.table(columns, schema=schema)`: the columns by name, in the order of the schema. -/
def paTable (schema : List String) (columns : List (String × List Val)) : Except PyExc (Table String Val) := do
  let fields ← schema.mapM fun name => (columnAt columns name).map fun column => (name, column)
  match Table.ofColumns? fields with
  | some arrow => return arrow
  -- pyarrow's `ArrowInvalid` is a `ValueError`
  | none => throw (.valueError "columns of different lengths")

variable {Row : Type} {σ : Type}

/-- The loop body of `to_arrow`. -/
def Layout.appendRow (L : Layout Row) (columns : List (String × List Val)) (r : Row) :
    Except PyExc (List (String × List Val)) :=
  L.appends.foldlM (fun columns a => appendTo columns a.1 (a.2 r)) columns

/-- The body of the three `to_arrow`. -/
def Layout.toArrow [KafkaRow Row] (L : Layout Row) (b : Batch Row) : Except PyExc (Table String Val) := do
  let columns ← b.rows.foldlM L.appendRow (L.schema.map fun name => (name, []))
  paTable L.schema columns

/-- `BronzeBatch.to_arrow`. -/
def BronzeBatch.toArrow : BronzeBatch → Except PyExc (Table String Val) := postsLayout.toArrow

/-- `LikesBatch.to_arrow`. -/
def LikesBatch.toArrow : LikesBatch → Except PyExc (Table String Val) := likesLayout.toArrow

/-- `FollowsBatch.to_arrow`. -/
def FollowsBatch.toArrow : FollowsBatch → Except PyExc (Table String Val) := followsLayout.toArrow

/-! ## Inserts -/

/-- A call of `insert_block`. -/
structure BlockCall where
  table : String
  rows : List (List Val)
  columnNames : List String

/-- What a landing run can raise: a Python exception, or the server's answer to an insert. -/
inductive LoadError where
  | python (e : PyExc)
  | server (message : String)

/-- `ch.insert`, as what it makes of the server. -/
abbrev ChClient (σ : Type) := BlockCall → σ → Except LoadError σ

/-- The server, and the calls that `insert_block` has received. -/
structure Session (σ : Type) where
  server : σ
  received : List BlockCall

/-- `insert_block`. -/
def insertBlock (ch : ChClient σ) (call : BlockCall) (s : Session σ) : Session σ × Except LoadError ℕ :=
  if call.rows.isEmpty then ({ s with received := s.received ++ [call] }, .ok 0)
  else match ch call s.server with
    | .ok server => (⟨server, s.received ++ [call]⟩, .ok call.rows.length)
    | .error e => ({ s with received := s.received ++ [call] }, .error e)

/-- The loop of `_insert_arrow`: the starts to come, and the total so far. -/
def insertChunks (ch : ChClient σ) (table : String) (cols : List String) (arrow : Table String Val)
    (batchRows : ℕ) : List ℕ → ℕ → Session σ → Session σ × Except LoadError ℕ
  | [], total, s => (s, .ok total)
  | start :: starts, total, s => match (arrow.slice start batchRows).tuples cols with
    -- `strict=True`, though the columns of a table are of one length
    | none => (s, .error (.python (.valueError "zip() argument 2 is shorter than argument 1")))
    | some rows => match insertBlock ch ⟨table, rows, cols⟩ s with
      | (s, .ok n) => insertChunks ch table cols arrow batchRows starts (total + n) s
      | (s, .error e) => (s, .error e)

/-- The body of the three `_insert_arrow`. -/
def Layout.insertArrow (L : Layout Row) (ch : ChClient σ) (table : String) (arrow : Table String Val)
    (batchRows : ℕ) (s : Session σ) : Session σ × Except LoadError ℕ :=
  match arrow.select L.columns with
  | none =>
    let name := (L.columns.find? fun c => (arrow.column c).isNone).getD ""
    (s, .error (.python (.keyError ("Field '" ++ name ++ "' does not exist in schema"))))
  | some arrow =>
    insertChunks ch table L.columns arrow batchRows (rangeStep arrow.numRows batchRows) 0 s

/-- `_insert_arrow` of `landing.py`. -/
def postsInsertArrow (ch : ChClient σ) := postsLayout.insertArrow ch

/-- `_insert_arrow` of `landing_likes.py`. -/
def likesInsertArrow (ch : ChClient σ) := likesLayout.insertArrow ch

/-- `_insert_arrow` of `landing_follows.py`. -/
def followsInsertArrow (ch : ChClient σ) := followsLayout.insertArrow ch

/-- `loaded`, in the landing assets. -/
def Layout.load (L : Layout Row) (ch : ChClient σ) (table : String) (st : LandingSettings)
    (arrow : Table String Val) (s : Session σ) : Session σ × Except LoadError ℕ :=
  if arrow.numRows ≠ 0 then L.insertArrow ch table arrow st.landingBatchRows s else (s, .ok 0)

/-- The blocks handed to `insert_block` one after the other, up to the first that raises. -/
def submit (ch : ChClient σ) (table : String) (cols : List String) :
    List (List (List Val)) → ℕ → Session σ → Session σ × Except LoadError ℕ
  | [], total, s => (s, .ok total)
  | block :: blocks, total, s => match insertBlock ch ⟨table, block, cols⟩ s with
    | (s, .ok n) => submit ch table cols blocks (total + n) s
    | (s, .error e) => (s, .error e)

/-! ## The rows laid out -/

/-- The table of rows in their order: a batch, or what a scan returns of the bronze table. -/
def Layout.table (L : Layout Row) (rows : List Row) : Table String Val := .ofRows L.getattr L.schema rows

/-- The row's own fields, in the column order of the landing. -/
def Layout.tuple (L : Layout Row) (r : Row) : List Val := L.columns.map fun c => L.getattr c r

/-- The blocks of the rows, as tuples. -/
def Layout.blocks (L : Layout Row) (rows : List Row) (n : ℕ) : List (List (List Val)) :=
  (BlueskyTrends.insertArrow rows n).map fun block => block.map L.tuple

end BlueskyTrends
