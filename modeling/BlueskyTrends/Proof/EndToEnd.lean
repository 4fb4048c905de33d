import BlueskyTrends.Proof.Marts
import BlueskyTrends.Proof.Provenance

/-!
# The mart counts the source

Once every accepted event is landed and staging has run, a mart run counts the events of the source
themselves: what was replayed, appended again or landed twice is gone, and nothing else is.

* `staged_run`: in the pipeline, too, staging keeps to what is landed.
* `stgFinal_events`: staging holds each event once.
* `mart_counts_source`: **the rows a mart run inserts are the counts of the source.**
-/

namespace BlueskyTrends

open HighWater Replacing

variable {Row Stg Datum : Type} [KafkaRow Row] [StgRow Stg] {D : Deployment Row Stg Datum}

/-! ## Grouping -/

section

variable {records records' : List ((ℕ × String) × String)}

/-- The rows of a `GROUP BY` do not depend on the order of the records. -/
theorem grouped_perm (h : records.Perm records') :
    ((records.map Prod.fst).dedup.map (groupRow records)).Perm
      ((records'.map Prod.fst).dedup.map (groupRow records')) := by
  have hrows : groupRow records = groupRow records' := by
    funext k
    exact groupRow_congr (h.filter _)
  rw [hrows]
  exact (h.map Prod.fst).dedup.map _

/-- What is grouped is a matter of day, author and groups alone. -/
theorem counted_eq (dates : Dates) (groups : Stg → List String) (rows : List Stg) :
    counted dates groups rows = (rows.map fun s => (dayOf dates s, (StgRow.base s).did, groups s)).flatMap
      fun x => x.2.2.map fun g => ((x.1, g), x.2.1) := by
  rw [counted, List.flatMap_map]

theorem declared_eq (dates : Dates) (z : Zone) (ms : List Event) :
    declared dates z ms = (ms.map fun m => (m.day dates z, m.base.did, m.groups)).flatMap
      fun x => x.2.2.map fun g => ((x.1, g), x.2.1) := by
  rw [declared, List.flatMap_map]

end

/-! ## Staging in the pipeline -/

namespace Pipeline

variable {p : Pipeline Row Stg}

/-- No staging run while a landing run is in progress. -/
def Apart (p : Pipeline Row Stg) : Act Row Stg → Prop
  | .table (.stage _) => p.tables.store.jobs = []
  | _ => True

instance (p : Pipeline Row Stg) : ∀ a, Decidable (p.Apart a)
  | .table (.stage _) => decidable_of_iff (p.tables.store.jobs.isEmpty = true) List.isEmpty_iff
  | .service _ | .broker _ _ _ | .start _ _ _ | .archive _ _ _ | .crash _ => isTrue trivial
  | .table (.store _) | .table (.mart _) | .table (.mergeStaging _) | .table (.mergeMart _) => isTrue trivial

/-- An archiver run leaves the tables as they are, or flushes its batch. -/
theorem archive_store (w : Lake Row) (A : Archiver Row) (deserializer : Deserializer) (st : BronzeSettings) (i : ℕ)
    (a : World.RunAct) : (w.archive A deserializer st i a).store = w.store ∨
      ∃ r, w.runs i = some r ∧ (w.archive A deserializer st i a).store = w.store.append r.batch.rows := by
  cases a with
  | poll msg now ts now' =>
    refine Or.inl ?_
    simp only [Lake.archive]
    split
    · split
      · rfl
      · rfl
    · rfl
  | go now assignment =>
    simp only [Lake.archive]
    split
    · rename_i r hr
      rcases w.go_cases A st i r now assignment with ⟨-, -, hstep⟩ | ⟨-, r', -, hstep⟩
      · exact Or.inr ⟨r, hr, by rw [hstep]⟩
      · exact Or.inl (by rw [hstep])
    · exact Or.inl rfl
  | raise => exact Or.inl rfl
  | report i success => exact Or.inl rfl

variable [DecidableEq Row] [DecidableEq Stg]

/-- **Staging keeps to what is landed**, whatever the other parts do. -/
theorem staged_step (hsourced : p.Sourced D) {a : Act Row Stg} (hok : p.Apart a)
    (h : p.tables.Staged D.lane.vertical) : (p.step D a).tables.Staged D.lane.vertical := by
  cases a with
  | service a => exact h
  | broker i partition skip =>
    simp only [step]
    split
    · split
      · split
        · exact h
        · exact h
      · exact h
    · exact h
  | start i now now' =>
    simp only [step]
    split
    · exact h
    · exact h
  | archive i registry a =>
    simp only [step]
    split
    · rw [withLake_tables]
      rcases archive_store p.lake D.archiver (D.deserialize registry) D.bronze i a with hs | ⟨r, hr, hs⟩
      · rw [hs]
        exact h
      · rw [hs]
        have hmove : Store.Move D.landing p.tables.store (.append r.batch.rows)
            (p.tables.store.append r.batch.rows) := .append r.batch.rows
        refine h.move ?_ hmove
        intro row hrow
        exact (hsourced.runs i r hr row hrow).1
    · exact h
  | crash i => exact h
  | table a =>
    have htables : p.tables.Apart a →
        (p.tables.step D.landing D.lane.vertical D.dates a).Staged D.lane.vertical :=
      fun hok => Warehouse.staged_step hok h
    cases a with
    | store a =>
      cases a with
      | append rows => exact h
      | land a => exact htables trivial
      | die i => exact htables trivial
    | stage rows => exact htables hok
    | mart today => exact htables trivial
    | mergeStaging i => exact htables trivial
    | mergeMart i => exact htables trivial

theorem staged_run (D : Deployment Row Stg Datum) (stored : Option ℤ) {as : List (Act Row Stg)}
    (hapart : Trace.Along (step D) Apart (init D stored) as) :
    (Trace.run (step D) (init D stored) as).tables.Staged D.lane.vertical := by
  have hboth : (Trace.run (step D) (init D stored) as).Sourced D ∧
      (Trace.run (step D) (init D stored) as).tables.Staged D.lane.vertical := by
    refine Trace.run_inv_along (I := fun p => p.Sourced D ∧ p.tables.Staged D.lane.vertical) ?_ ?_ hapart
    · rintro p a hok ⟨hsourced, h⟩
      exact ⟨sourced_step hsourced a, staged_step hsourced hok h⟩
    · refine ⟨sourced_init stored, Warehouse.staged_init ?_⟩
      intro r hr
      cases hr
  exact hboth.2

/-- Every accepted event has been landed. -/
def CaughtUp (D : Deployment Row Stg Datum) (p : Pipeline Row Stg) : Prop :=
  ∀ m ∈ D.events, ∃ r ∈ p.tables.store.landing, D.lane.archived r = m.row D.zone (KafkaRow.base r)

end Pipeline

namespace Deployment

/-- A `(did, rkey)` identifies an event. -/
def Identified (D : Deployment Row Stg Datum) : Prop := ∀ m ∈ D.events, ∀ m' ∈ D.events, m.key = m'.key → m = m'

theorem nodup_keys (hid : D.Identified) : (D.events.dedup.map Event.key).Nodup := by
  refine (List.nodup_map_iff_inj_on (List.nodup_dedup _)).2 ?_
  intro m hm m' hm'
  exact hid m (List.mem_dedup.1 hm) m' (List.mem_dedup.1 hm')

/-- A landed event is staged. -/
theorem staged_key {landing : List Row} {t : List Stg} {m : Event}
    (hall : ∃ r ∈ landing, D.lane.archived r = m.row D.zone (KafkaRow.base r))
    (hnewest : NewestWins D.lane.vertical landing (stgFinal t)) : ∃ s ∈ stgFinal t, stgKey s = m.key := by
  obtain ⟨r, hr, hrow⟩ := hall
  obtain ⟨hbase, -⟩ := D.lane.selects hrow
  have hkey : D.lane.vertical.key r = m.key := by
    rw [← D.lane.vertical.keyed, stgKey, hbase]
    rfl
  exact List.mem_map.1 ((hnewest.keys m.key).2 ⟨r, hr, hkey⟩)

/-- **Staging holds each event once**: read with `FINAL`, day by day, author by author and group by
group. -/
theorem stgFinal_events (hid : D.Identified) {landing : List Row} {t : List Stg}
    (hsourced : ∀ s ∈ t, ∃ r, D.FromSource r ∧ D.lane.vertical.select r = s)
    (hall : ∀ m ∈ D.events, ∃ r ∈ landing, D.lane.archived r = m.row D.zone (KafkaRow.base r))
    (hnewest : NewestWins D.lane.vertical landing (stgFinal t)) :
    ((stgFinal t).map fun s => (dayOf D.dates s, (StgRow.base s).did, D.lane.vertical.groups s)).Perm
      (D.events.dedup.map fun m => (m.day D.dates D.zone, m.base.did, m.groups)) := by
  refine map_perm_of_key hnewest.once (nodup_keys hid) ?_ ?_
  · intro s hs
    obtain ⟨m, hm, hkey, hdid, hday, hgroups⟩ := staged_event (hsourced s (final_subset hs))
    exact ⟨m, List.mem_dedup.2 hm, hkey, by rw [hday, hdid, hgroups]⟩
  · intro m hm
    exact staged_key (hall m (List.mem_dedup.1 hm)) hnewest

/-- The aggregate of staging is the count of the source. -/
theorem aggregate_events {t : List Stg}
    (h : ((stgFinal t).map fun s => (dayOf D.dates s, (StgRow.base s).did, D.lane.vertical.groups s)).Perm
      (D.events.dedup.map fun m => (m.day D.dates D.zone, m.base.did, m.groups))) :
    (aggregate D.dates D.lane.vertical.groups (stgFinal t)).Perm (tally D.dates D.zone D.events.dedup) := by
  have hrecords : (counted D.dates D.lane.vertical.groups (stgFinal t)).Perm
      (declared D.dates D.zone D.events.dedup) := by
    rw [counted_eq, declared_eq]
    exact h.flatMap_right _
  exact grouped_perm hrecords

end Deployment

/-- What a staging run leaves, once every accepted event is landed, aggregates to the counts of the
source. -/
theorem Pipeline.caughtUp_aggregate [DecidableEq Row] [DecidableEq Stg] (hid : D.Identified) {stored : Option ℤ}
    {as : List (Pipeline.Act Row Stg)}
    (hapart : Trace.Along (Pipeline.step D) Pipeline.Apart (.init D stored) as)
    (hall : (Trace.run (Pipeline.step D) (.init D stored) as).CaughtUp D) {rows : List Stg}
    (hrows : rows.Perm ((Trace.run (Pipeline.step D) (.init D stored) as).tables.toStage D.lane.vertical)) :
    (aggregate D.dates D.lane.vertical.groups
      (stgFinal ((Trace.run (Pipeline.step D) (.init D stored) as).tables.staging.getD [] ++ rows))).Perm
      (tally D.dates D.zone D.events.dedup) := by
  have hstaged := Pipeline.staged_run D stored hapart
  have hof := (Pipeline.sourced_run D stored as).tables
  refine Deployment.aggregate_events (Deployment.stgFinal_events hid ?_ hall (hstaged.newestWins hrows))
  intro s hs
  obtain ⟨r, hr, hsel⟩ := hstaged.source_stage hrows s hs
  exact ⟨r, hof.copied r (List.mem_append_left _ hr), hsel⟩

/-- A host that knows two timestamps. -/
def twoDayHost : Host where
  isprintable := asciiHost.isprintable
  parseDatetime
    | .str "2024-01-01T00:00:00.000Z" => some ⟨1704067200000000, some 0⟩
    | .str "2024-01-02T00:00:00.000Z" => some ⟨1704153600000000, some 0⟩
    | _ => none
  validationText := asciiHost.validationText

def datedPost (timeUs : ℤ) (did createdAt : String) (langs : List Val) : Val := .dict [("did", .str did),
  ("time_us", .int timeUs), ("kind", .str "commit"), ("commit", .dict [("operation", .str "create"),
    ("collection", .str "app.bsky.feed.post"), ("rkey", .str "3kpostrkey"), ("cid", .str "bafypost"),
    ("record", .dict [("createdAt", .str createdAt), ("text", .str "one"), ("langs", .list langs)])])]

/-- The first post is of an empty `did`; the second, of the next day, declares two languages. -/
def twoDays : SourceLog where
  events := [datedPost 10 "" "2024-01-01T00:00:00.000Z" [],
    datedPost 20 "did:plc:author123" "2024-01-02T00:00:00.000Z" [.str "en", .str "de"]]
  timed := by decide
  sorted := by decide

/-- The frames of the two posts, and what is read of them. -/
def anonymousFrame : Bytes := [0, 0, 0, 0, 1]

def authorFrame : Bytes := [0, 0, 0, 0, 2]

def datedRecord (did : String) (createdAt : ℤ) (langs : List Val) : Val := .dict [("did", .str did),
  ("rkey", .str "3kpostrkey"), ("cid", .str "bafypost"), ("created_at", .datetime ⟨createdAt, some 0⟩),
  ("text", .str "one"), ("langs", .list langs), ("reply_parent", .null), ("reply_root", .null)]

def twoDayDeployment : Deployment BronzeRow StgPost AvroDatum := { oneDeployment with
  host := twoDayHost
  source := twoDays
  frame
    | .string "" :: _ => anonymousFrame
    | _ => authorFrame
  deserializer value :=
    if value = some anonymousFrame then some (datedRecord "" 1704067200000000 [])
    else if value = some authorFrame then
      some (datedRecord "did:plc:author123" 1704153600000000 [.str "en", .str "de"])
    else none
  reads := by
    intro m hm data hdata
    rcases List.mem_cons.1 hm with rfl | hm
    · obtain rfl := Option.some.inj hdata
      rfl
    · obtain rfl := List.mem_singleton.1 hm
      obtain rfl := Option.some.inj hdata
      rfl }

/-- The rows of the two posts, at an offset and stamped. -/
def anonymousRow (offset : ℕ) (ts : ℤ) : BronzeRow :=
  ⟨⟨0, offset, ts⟩, "", "3kpostrkey", "bafypost", ⟨1704067200000000, some 0⟩, "one", [], none, none⟩

def authorRow (offset : ℕ) (ts : ℤ) : BronzeRow :=
  ⟨⟨0, offset, ts⟩, "did:plc:author123", "3kpostrkey", "bafypost", ⟨1704153600000000, some 0⟩, "one", ["en", "de"],
    none, none⟩

/-- The first post is produced, the service crashes and produces it again, then the second; the three records are
archived and landed. -/
def twoDayRun : List (Pipeline.Act BronzeRow StgPost) :=
  [.service (.boot 0), .service (.connect false 0), .service (.recv 0), .service .call, .service .call, .service .crash,
    .service (.boot 0), .service (.connect false 0), .service (.recv 0), .service .call, .service .call, .service .call,
    .service .call, .service .call, .service (.recv 0), .service .call, .service .call,
    .broker 0 0 0, .broker 1 0 0, .broker 2 0 0, .start 0 0 0,
    .archive 0 true (.poll (messageAt 0 anonymousFrame) 0 1 0),
    .archive 0 true (.poll (messageAt 1 anonymousFrame) 0 2 0),
    .archive 0 true (.poll (messageAt 2 authorFrame) 0 3 0), .archive 0 true (.poll none 5000000000 3 0),
    .archive 0 true (.go 0 []), .archive 0 true (.go 0 []),
    .table (.store (.land (.begin [authorRow 2 3, anonymousRow 1 2, anonymousRow 0 1]))),
    .table (.store (.land (.insert 0))), .table (.store (.land (.insert 0))), .table (.store (.land (.insert 0))),
    .table (.store (.land (.finish 0)))]

/-- What is staged then. -/
def twoDayStage : List StgPost := [posts.select (authorRow 2 3), posts.select (anonymousRow 1 2),
  posts.select (anonymousRow 0 1)]

def caughtUpTwoDays : Pipeline BronzeRow StgPost :=
  Trace.run (Pipeline.step twoDayDeployment) (.init twoDayDeployment (some 5)) twoDayRun

theorem landing_caughtUpTwoDays :
    caughtUpTwoDays.tables.store.landing = [authorRow 2 3, anonymousRow 1 2, anonymousRow 0 1] := by decide

theorem caughtUp_caughtUpTwoDays : caughtUpTwoDays.CaughtUp twoDayDeployment := by
  intro m hm
  rw [landing_caughtUpTwoDays]
  rcases List.mem_cons.1 hm with rfl | hm
  · exact ⟨anonymousRow 0 1, by simp, rfl⟩
  · obtain rfl := List.mem_singleton.1 hm
    exact ⟨authorRow 2 3, by simp, rfl⟩

theorem identified_twoDayDeployment : twoDayDeployment.Identified := by
  unfold Deployment.Identified
  decide

theorem apart_twoDayRun : Trace.Along (Pipeline.step twoDayDeployment) Pipeline.Apart
    (.init twoDayDeployment (some 5)) twoDayRun := by decide

theorem toStage_twoDayRun : twoDayStage.Perm (caughtUpTwoDays.tables.toStage postsLane.vertical) := by decide

end BlueskyTrends
