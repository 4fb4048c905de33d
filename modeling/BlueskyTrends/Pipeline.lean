import BlueskyTrends.Avro
import BlueskyTrends.Dbt.Warehouse
import BlueskyTrends.Ingest.Service
import BlueskyTrends.Landing.Lake
import BlueskyTrends.Proof.Drained

/-!
# The pipeline

One event type on its way from Jetstream to its mart: the ingest service hands models to Kafka,
archiver runs append what they decode to bronze, landing runs copy bronze, the dbt models run on the
copy. `Deployment` is what is fixed, `Pipeline` the state of all the parts, `Pipeline.step` a step
of any one of them.
-/

namespace BlueskyTrends

/-! ## What an event counts for -/

/-- The identity fields of a model. -/
def Event.base : Event → EventBase
  | .post m => m.toEventBase
  | .like m => m.toEventBase
  | .follow m => m.toEventBase

/-- `(did, rkey)`. -/
def Event.key (m : Event) : String × String := (m.base.did, m.base.rkey)

/-- The languages a post declares, the subject of a like or a follow. -/
def Event.groups : Event → List String
  | .post m => if (m.langs.getD []).isEmpty then ["und"] else m.langs.getD []
  | .like m => [m.subjectUri]
  | .follow m => [m.subjectDid]

/-- The staging columns of a model from a host in zone `z`, stamped `ts`. -/
def Event.stgBase (z : Zone) (m : Event) (ts : ℤ) : StgBase where
  did := m.base.did
  rkey := m.base.rkey
  cid := m.base.cid
  createdAt := m.createdAt.instant z
  ingestTs := ts

/-- The day a model from a host in zone `z` is counted on. -/
def Event.day (dates : Dates) (z : Zone) (m : Event) : ℕ := dates.toDate (m.createdAt.instant z)

/-! ## One event type -/

/-- The parts of one event type, from its topic to its mart. -/
structure Lane (Row Stg : Type) [KafkaRow Row] [StgRow Stg] where
  kind : Kind
  archiver : Host → BronzeSettings → Archiver Row
  vertical : Vertical Row Stg
  archived : Row → Archived
  decodes : ∀ H st obj base, archived <$> (archiver H st).decode obj base = decodeAs H kind obj base
  selects : ∀ {row m z base}, archived row = Event.row z m base →
    StgRow.base (vertical.select row) = m.stgBase z base.ingestTs ∧ vertical.groups (vertical.select row) = m.groups

def postsLane : Lane BronzeRow StgPost where
  kind := .post
  archiver := postsBronze
  vertical := posts
  archived := .post
  decodes _ _ _ _ := rfl
  selects {row m z base} h := by
    cases m with
    | post m =>
      obtain rfl := Archived.post.inj h
      refine ⟨?_, rfl⟩
      simp [StgRow.base, posts, Event.stgBase, Event.base, Event.createdAt, DateTime.utcMicros, DateTime.ofInstant]
    | like m => cases h
    | follow m => cases h

def likesLane : Lane LikeRow StgLike where
  kind := .like
  archiver := likesBronze
  vertical := likes
  archived := .like
  decodes _ _ _ _ := rfl
  selects {row m z base} h := by
    cases m with
    | like m =>
      obtain rfl := Archived.like.inj h
      refine ⟨?_, rfl⟩
      simp [StgRow.base, likes, Event.stgBase, Event.base, Event.createdAt, DateTime.utcMicros, DateTime.ofInstant]
    | post m => cases h
    | follow m => cases h

def followsLane : Lane FollowRow StgFollow where
  kind := .follow
  archiver := followsBronze
  vertical := follows
  archived := .follow
  decodes _ _ _ _ := rfl
  selects {row m z base} h := by
    cases m with
    | follow m =>
      obtain rfl := Archived.follow.inj h
      refine ⟨?_, rfl⟩
      simp [StgRow.base, follows, Event.stgBase, Event.base, Event.createdAt, DateTime.utcMicros, DateTime.ofInstant]
    | post m => cases h
    | like m => cases h

/-- The model `to_model` makes of an event, where it accepts it. -/
def Host.accepts (H : Host) (event : Val) : Option Event :=
  match toModel H event with
  | .ok m => some m
  | .error _ => none

/-- What is fixed in a deployment. The serializer and the deserializer of the topic are not part of
this repository: what is read of the frame of an accepted event is the record that was written. The
clock starts after the epoch. -/
structure Deployment (Row Stg Datum : Type) [KafkaRow Row] [StgRow Stg] where
  lane : Lane Row Stg
  host : Host
  zone : Zone
  ingest : IngestSettings
  bronze : BronzeSettings
  landing : LandingSettings
  dates : Dates
  source : SourceLog
  codec : AvroCodec Datum
  frame : List Datum → Bytes
  deserializer : Deserializer
  reads : ∀ m ∈ source.events.filterMap host.accepts, ∀ data,
    codec.writeRecord zone m.kind.avsc m.toAvroDict = some data →
      deserializer (some (frame data)) = some (codec.readRecord m.kind.avsc data)
  clock : ℤ
  afterEpoch : 0 < clock

/-- The state of the parts: the ingest service, the messages it has handed over, the topic, the last
clock reading and the archiver runs by number with the snapshots of the bronze table, the tables. -/
structure Pipeline (Row Stg : Type) [KafkaRow Row] where
  service : Service
  handed : List Event
  topic : Topic
  clock : ℤ
  runs : ℕ → Option (Run Row)
  snapshots : ℕ
  loaded : ℕ → ℕ
  tables : Warehouse Row Stg

/-- The message the service hands over when its next call returns. -/
def Service.hands (s : Service) : Service.Act → Option Event
  | .call => match s.life with
    | some l => match l.proc.todo with
      | .produce m _ :: _ => some m
      | _ => none
    | none => none
  | _ => none

variable {Row Stg Datum : Type} [KafkaRow Row] [StgRow Stg]

namespace Deployment

variable (D : Deployment Row Stg Datum)

/-- The events of the source that are accepted and of the event type, as models. -/
def events : List Event :=
  (D.source.events.filterMap D.host.accepts).filter fun m => m.kind = D.lane.kind

/-- What is written of a model to its topic. -/
def message (m : Event) : Option Bytes := (D.codec.writeRecord D.zone m.kind.avsc m.toAvroDict).map D.frame

def archiver : Archiver Row := D.lane.archiver D.host D.bronze

/-- The deserializer of a run, which reads nothing while the schema registry cannot be reached. -/
def deserialize (registry : Bool) : Deserializer := if registry then D.deserializer else fun _ => none

end Deployment

namespace Pipeline

/-- Nothing has happened, with the cursor `stored` from before. -/
def init (D : Deployment Row Stg Datum) (stored : Option ℤ) : Pipeline Row Stg :=
  ⟨.init stored, [], emptyTopic, D.clock, fun _ => none, 0, fun _ => 0, .init []⟩

/-- What can happen: the service goes on; the broker appends the `i`-th message handed over, maybe
not for the first time; archiver run `i` starts, goes on or is gone; a landing run or a dbt model
goes on. -/
inductive Act (Row Stg : Type) where
  | service (a : Service.Act)
  | broker (i : ℕ) (partition : ℤ) (skip : ℕ)
  | start (i : ℕ) (now now' : ℤ)
  | archive (i : ℕ) (registry : Bool) (a : World.RunAct)
  | crash (i : ℕ)
  | table (a : Warehouse.Act Row Stg)

/-- A data message is a record of the topic. -/
def Delivers (topic : Topic) : World.RunAct → Prop
  | .poll (some ⟨none, some p, some o, value⟩) _ _ _ => topic.log p o = some value
  | _ => True

instance (topic : Topic) (a : World.RunAct) : Decidable (Delivers topic a) := by
  unfold Delivers
  split <;> infer_instance

/-- The archiver runs and the bronze table. -/
def lake (p : Pipeline Row Stg) : Lake Row := ⟨p.clock, p.runs, p.snapshots, p.loaded, p.tables.store⟩

/-- The pipeline with what an archiver run has made of the lake. -/
def withLake (p : Pipeline Row Stg) (w : Lake Row) : Pipeline Row Stg :=
  { p with
    clock := w.clock
    runs := w.runs
    snapshots := w.snapshots
    loaded := w.loaded
    tables := { p.tables with store := w.store } }

omit [StgRow Stg] in
@[simp] theorem withLake_tables (p : Pipeline Row Stg) (w : Lake Row) :
    (p.withLake w).tables = { p.tables with store := w.store } := rfl

variable [DecidableEq Row] [DecidableEq Stg] (D : Deployment Row Stg Datum)

def step (p : Pipeline Row Stg) : Act Row Stg → Pipeline Row Stg
  | .service a => { p with
      service := p.service.step D.host D.ingest D.source a
      handed := p.handed ++ (p.service.hands a).toList }
  | .broker i partition skip => match p.handed[i]? with
    | some m => match D.message m with
      | some bytes =>
        -- the other event types have topics of their own
        if m.kind = D.lane.kind then { p with topic := p.topic.produce partition skip (some bytes) } else p
      | none => p
    | none => p
  | .start i now now' =>
    if (p.runs i).all Run.ended then
      { p with
        runs := Function.update p.runs i (some (.init D.bronze now now'))
        loaded := Function.update p.loaded i p.snapshots }
    else p
  | .archive i registry a =>
    if Delivers p.topic a then
      p.withLake (p.lake.archive D.archiver (D.deserialize registry) D.bronze i a)
    else p
  | .crash i => { p with runs := Function.update p.runs i none }
  -- bronze is appended to by archiver runs alone
  | .table (.store (.append _)) => p
  | .table a => { p with tables := p.tables.step D.landing D.lane.vertical D.dates a }

end Pipeline

/-! ## The counts of the source -/

/-- What is grouped: each event once for each group it counts for, with its `did`. -/
def declared (dates : Dates) (z : Zone) (ms : List Event) : List ((ℕ × String) × String) :=
  ms.flatMap fun m => m.groups.map fun g => ((m.day dates z, g), m.base.did)

/-- The rows of a mart, counted from events. -/
def tally (dates : Dates) (z : Zone) (ms : List Event) : List MartRow :=
  ((declared dates z ms).map Prod.fst).dedup.map (groupRow (declared dates z ms))

end BlueskyTrends
