import BlueskyTrends.Bronze.Batch
import BlueskyTrends.Lib.Trace

/-!
# The bronze archivers

`posts_bronze`, `likes_bronze` and `follows_bronze` are one loop over the event type: poll a
message, decode it into the batch or quarantine it, flush the batch at its bounds. `Run` is
the asset's local state with the point it has reached; `Run.poll` is what it does with a poll
result, `Run.go` the next effect. `World` is what outlives a run: the Iceberg table, the
committed offsets, the dead-letter topic.
-/

namespace BlueskyTrends

/-- The settings the archivers read. -/
structure BronzeSettings where
  topicPosts : String
  topicLikes : String
  topicFollows : String
  bronzeBatchMaxRows : ℤ
  bronzeBatchMaxSeconds : ℤ
  bronzeMaxRowsPerRun : ℤ

/-- What the three archivers differ in. A row carries its record's place and stamp, and whether a
record is rejected does not depend on them. -/
structure Archiver (Row : Type) [KafkaRow Row] where
  topic : String
  decode : Val → RowBase → Except DlqRow Row
  place : ∀ {obj base row}, decode obj base = .ok row → KafkaRow.base row = base
  reject : ∀ {obj base d}, decode obj base = .error d → ∀ base', decode obj base' = .error d

/-- `posts_bronze`. -/
def postsBronze (H : Host) (st : BronzeSettings) : Archiver BronzeRow where
  topic := st.topicPosts
  decode := decodePost H
  place := decodeRow_place BronzeRow.toRowBase fun _ _ => rfl
  reject := decodeRow_reject

/-- `likes_bronze`. -/
def likesBronze (H : Host) (st : BronzeSettings) : Archiver LikeRow where
  topic := st.topicLikes
  decode := decodeLike H
  place := decodeRow_place LikeRow.toRowBase fun _ _ => rfl
  reject := decodeRow_reject

/-- `follows_bronze`. -/
def followsBronze (H : Host) (st : BronzeSettings) : Archiver FollowRow where
  topic := st.topicFollows
  decode := decodeFollow H
  place := decodeRow_place FollowRow.toRowBase fun _ _ => rfl
  reject := decodeRow_reject

/-! ## Kafka -/

abbrev Bytes := List UInt8

/-- The Avro deserializer of a topic, `none` where it raises. -/
abbrev Deserializer := Option Bytes → Option Val

/-- `_deserialize`. -/
def deserialize (deserializer : Deserializer) (value : Option Bytes) : Val :=
  (deserializer value).getD .null

/-- The records of a topic by partition and offset, each with its value. -/
abbrev KafkaLog := ℤ → ℕ → Option (Option Bytes)

inductive KafkaError where
  | partitionEof | other
  deriving DecidableEq

/-- What `consumer.poll` returns when it is not `None`. -/
structure Msg where
  error : Option KafkaError
  partition : Option ℤ
  offset : Option ℕ
  value : Option Bytes

/-- `_IDLE_STOP_SECONDS`. Durations and readings of the monotonic clock are in nanoseconds. -/
def idleStopSeconds : ℤ := 15000000000

/-- A dead letter on its way. The envelope is the row and its topic; where the record was read
is history. -/
structure Envelope where
  row : DlqRow
  intendedTopic : String
  partition : ℤ
  offset : ℕ
  deriving DecidableEq

/-! ## A run -/

/-- Where the code goes on after `flush()`. -/
inductive Next where
  | top | idle | closing
  deriving DecidableEq

/-- The point a run has reached: the head of the loop, an effect about to happen (the two of
`flush()`, the two of the undecodable path), the stop check after an empty poll, the `finally`
block, the end. `returned` tells a normal return from an exception. -/
inductive Ctl where
  | top
  | append (next : Next)
  | commit (next : Next)
  | idle
  | send (row : DlqRow) (partition : ℤ) (offset : ℕ)
  | commitPast (partition : ℤ) (offset : ℕ)
  | closing (returned : Bool)
  | done (returned : Bool)
  deriving DecidableEq

def Next.ctl : Next → Ctl
  | .top => .top
  | .idle => .idle
  | .closing => .closing true

/-- The local variables of a run, and the point it has reached. -/
structure Run (Row : Type) [KafkaRow Row] where
  ctl : Ctl
  batch : Batch Row
  archived : ℕ
  dlqCount : ℕ
  lastFlush : ℤ
  lastActivity : ℤ
  eofPartitions : List ℤ

/-- The effects of a run on what outlives it. -/
inductive Effect (Row : Type) where
  | append (rows : List Row)
  | commit (offsets : List (ℤ × ℕ))
  | send (envelope : Envelope)

variable {Row : Type} [KafkaRow Row]

/-- `_commit`: the next-to-read offset of each partition. -/
def commitEffect (offsets : List (ℤ × ℕ)) : Effect Row := .commit (offsets.map fun p => (p.1, p.2 + 1))

namespace Run

/-- The locals before the loop, with the clock readings of `last_flush` and `last_activity`. -/
def init (st : BronzeSettings) (now now' : ℤ) : Run Row :=
  ⟨.top, .init st.bronzeBatchMaxRows st.bronzeBatchMaxSeconds, 0, 0, now, now', []⟩

/-- The condition of the loop. -/
def goesOn (st : BronzeSettings) (r : Run Row) : Bool :=
  decide ((r.archived : ℤ) + r.batch.rows.length < st.bronzeMaxRowsPerRun)

/-- `flush()`, up to its first effect. -/
def flush (r : Run Row) (next : Next) : Run Row :=
  { r with ctl := if r.batch.isEmpty then next.ctl else .append next }

/-- `drained()`, with the live assignment. -/
def drained (r : Run Row) (assignment : List ℤ) : Bool :=
  !assignment.isEmpty && assignment.all fun p => p ∈ r.eofPartitions

/-- A data message: decoded into the batch, or on its way to quarantine. -/
def data (A : Archiver Row) (deserializer : Deserializer) (r : Run Row) (partition : ℤ) (offset : ℕ)
    (value : Option Bytes) (now ts : ℤ) : Run Row :=
  -- new data: the partition is not at its end any more
  let r := { r with eofPartitions := r.eofPartitions.filter (· ≠ partition) }
  match A.decode (deserialize deserializer value) ⟨partition, offset, ts⟩ with
  | .error row => { r with ctl := .send row partition offset }
  | .ok row =>
    let r := { r with batch := r.batch.add row }
    if r.batch.shouldFlush (now - r.lastFlush) then r.flush .top else { r with ctl := .top }

/-- What the loop does with a poll result. The clock readings, in the order the code takes them:
`now` on the result, `ts` the stamp, `now'` for the flush check. -/
def poll (A : Archiver Row) (deserializer : Deserializer) (r : Run Row) (msg : Option Msg)
    (now ts now' : ℤ) : Run Row :=
  match msg with
  -- an empty poll: a flush by age, then the stop check
  | none => if r.batch.shouldFlush (now - r.lastFlush) then r.flush .idle else { r with ctl := .idle }
  | some m =>
    let r := { r with lastActivity := now }
    match m.error, m.partition, m.offset with
    | some .partitionEof, some p, _ => { r with eofPartitions := p :: r.eofPartitions, ctl := .top }
    -- any other error is raised
    | some _, _, _ => { r with ctl := .closing false }
    | none, some p, some o => r.data A deserializer p o m.value now' ts
    -- a message without a place is passed over
    | none, _, _ => { r with ctl := .top }

/-- The next effect, and the code up to the next one. -/
def go (A : Archiver Row) (st : BronzeSettings) (r : Run Row) (now : ℤ) (assignment : List ℤ) :
    Run Row × Option (Effect Row) :=
  match r.ctl with
  -- past the row cap the loop ends, and what remains is flushed
  | .top => if r.goesOn st then (r, none) else (r.flush .closing, none)
  | .append next => ({ r with ctl := .commit next }, some (.append r.batch.rows))
  | .commit next =>
    ({ r with
      archived := r.archived + r.batch.rows.length
      batch := r.batch.clear
      lastFlush := now
      ctl := next.ctl }, some (commitEffect r.batch.offsetItems))
  | .idle =>
    if r.batch.isEmpty && (r.drained assignment || decide (idleStopSeconds < now - r.lastActivity)) then
      (r.flush .closing, none)
    else ({ r with ctl := .top }, none)
  | .send row p o =>
    ({ r with dlqCount := r.dlqCount + 1, ctl := .commitPast p o }, some (.send ⟨row, A.topic, p, o⟩))
  -- the offset of this record alone, whatever the batch still holds
  | .commitPast p o => ({ r with ctl := .top }, some (commitEffect [(p, o)]))
  | .closing returned => ({ r with ctl := .done returned }, none)
  | .done _ => (r, none)

/-- An exception: the `finally` block, or out of it. -/
def raise (r : Run Row) : Run Row :=
  match r.ctl with
  -- out of the `finally` block there is nothing left to run
  | .closing _ | .done _ => { r with ctl := .done false }
  | _ => { r with ctl := .closing false }

/-- The run is over. -/
def ended (r : Run Row) : Bool := match r.ctl with
  | .done _ => true
  | _ => false

end Run

/-! ## Runs against the world -/

/-- What outlives a run, and the run in progress with its consumer's positions. `commits` records
the offsets the run has committed. -/
structure World (Row : Type) [KafkaRow Row] where
  table : List Row
  committed : ℤ → ℕ
  inflight : List Envelope
  acked : List Envelope
  run : Option (Run Row)
  position : ℤ → ℕ
  commits : List (ℤ × ℕ)

namespace World

def init (table : List Row) (committed : ℤ → ℕ) : World Row :=
  ⟨table, committed, [], [], none, committed, []⟩

/-- What can happen in a run. -/
inductive RunAct where
  /-- `consumer.poll` returns; clock readings as in `Run.poll`. -/
  | poll (msg : Option Msg) (now ts now' : ℤ)
  /-- The next effect happens. -/
  | go (now : ℤ) (assignment : List ℤ)
  /-- The next call raises. -/
  | raise
  /-- The broker decides on the `i`-th envelope it has not decided on yet. -/
  | report (i : ℕ) (success : Bool)

inductive Act where
  | start (now now' : ℤ)
  | run (a : RunAct)
  | crash

/-- The consumer can deliver the message now: a record of the log at the partition's position,
offsets without a record skipped. Only a message with neither an error nor a missing place is one. -/
def deliverable (log : KafkaLog) (position : ℤ → ℕ) (m : Msg) : Prop :=
  match m.error, m.partition, m.offset with
  | none, some p, some o =>
    position p ≤ o ∧ log p o = some m.value ∧ ∀ o' < o, position p ≤ o' → log p o' = none
  | _, _, _ => True

instance (log : KafkaLog) (position : ℤ → ℕ) (m : Msg) : Decidable (deliverable log position m) := by
  unfold deliverable
  split <;> infer_instance

/-- The positions after a message. -/
def advance (position : ℤ → ℕ) : Option Msg → ℤ → ℕ
  | some ⟨none, some p, some o, _⟩ => Function.update position p (o + 1)
  | _ => position

/-- The effect of a run on the world. -/
def apply (w : World Row) : Option (Effect Row) → World Row
  | some (.append rows) => { w with table := w.table ++ rows }
  | some (.commit offsets) => { w with
      committed := fun p => (offsets.lookup p).getD (w.committed p)
      commits := w.commits ++ offsets }
  | some (.send envelope) => { w with inflight := w.inflight ++ [envelope] }
  | none => w

/-- The broker's decision on an envelope. -/
def report (w : World Row) (i : ℕ) (success : Bool) : World Row :=
  match w.inflight[i]? with
  | some e => { w with
      inflight := w.inflight.eraseIdx i
      acked := if success then w.acked ++ [e] else w.acked }
  | none => w

variable (A : Archiver Row) (deserializer : Deserializer) (st : BronzeSettings) (log : KafkaLog)

/-- A run starts at the committed offsets. -/
def start (w : World Row) (now now' : ℤ) : World Row :=
  { w with run := some (.init st now now'), position := w.committed, commits := [] }

def runStep (w : World Row) : RunAct → World Row
  | .poll msg now ts now' => match w.run with
    | some r =>
      if r.ctl = .top ∧ r.goesOn st ∧ ∀ m ∈ msg, deliverable log w.position m then
        { w with run := some (r.poll A deserializer msg now ts now'), position := advance w.position msg }
      else w
    | none => w
  | .go now assignment => match w.run with
    | some r => { w.apply (r.go A st now assignment).2 with run := some (r.go A st now assignment).1 }
    | none => w
  | .raise => match w.run with
    | some r => { w with run := some r.raise }
    | none => w
  | .report i success => w.report i success

def step (w : World Row) : Act → World Row
  | .start now now' => if w.run.all Run.ended then w.start st now now' else w
  | .run a => w.runStep A deserializer st log a
  | .crash => { w with run := none }

end World

end BlueskyTrends
