import BlueskyTrends.Pipeline
import BlueskyTrends.Proof.Completeness
import BlueskyTrends.Proof.Resume
import BlueskyTrends.Proof.Staging

/-!
# Where the rows come from

Every part may repeat its work: the service replays events, the broker may append a message again,
archiver runs overlap, landing and staging runs are cut off. None of them makes anything up, so
every row in any of the tables is of an accepted event of the source.

* `sourced_step`: what each step of the pipeline keeps.
* `rows_sourced`: **every row is an event of the source**, with the event's columns.
* `mart_never_inflated`: **no replay is counted**: a mart row is at most the distinct posts of its
  day and group.
-/

namespace BlueskyTrends

open HighWater Replacing

variable {Row Stg Datum : Type} [KafkaRow Row] [StgRow Stg]

/-! ## The service -/

namespace Proc

variable {H : Host} {st : IngestSettings} {p : Proc} {a : Act} {m : Event} {c : ℤ}

/-- A produce still to be made was one before, or is of the event just received. -/
theorem produce_step (h : Call.produce m c ∈ (p.step H st a).todo) :
    Call.produce m c ∈ p.todo ∨ ∃ event now, a = .recv event now ∧ toModel H event = .ok m := by
  have hdrain : Call.produce m c ∉ drainCalls := by simp [drainCalls]
  have hrest : ∀ {call : Call} {rest : List Call}, p.todo = call :: rest → Call.produce m c ∈ rest →
      Call.produce m c ∈ p.todo := by
    intro call rest ht hm
    rw [ht]
    exact List.mem_cons_of_mem _ hm
  have hmove := move_step H st p a
  generalize p.step H st a = p' at h hmove
  cases hmove with
  | stay => exact Or.inl h
  | @recv event now calls hi hc =>
    refine Or.inr ⟨event, now, rfl, ?_⟩
    cases consumeCalls_ok hc with
    | skipped hr => cases hr _ h
    | deadLettered hr =>
      rcases List.mem_cons.1 h with h | h
      · cases h
      · cases hr _ h
    | produced hm _ hr =>
      rcases List.mem_cons.1 h with h | h
      · cases h
      · rcases List.mem_cons.1 h with h | h
        · cases h
          exact hm
        · cases hr _ h
  | recvFails => exact absurd h hdrain
  | drain => exact absurd h hdrain
  | abandon => cases h
  | register ht => exact Or.inl (hrest ht h)
  | produce ht => exact Or.inl (hrest ht h)
  | produceDlq ht => exact Or.inl (hrest ht h)
  | quiet ht => exact Or.inl (hrest ht h)
  | report => exact Or.inl h

end Proc

namespace Service

variable {H : Host} {st : IngestSettings} {log : SourceLog} {s : Service}

/-- An event of the source is accepted as `m`. -/
def Accepted (H : Host) (log : SourceLog) (m : Event) : Prop := ∃ e ∈ log.events, toModel H e = .ok m

/-- What a life has to deliver is of the source, and what it has to produce is an accepted event. -/
def Faithful (H : Host) (log : SourceLog) (s : Service) : Prop :=
  ∀ l, s.life = some l → (∀ es, l.conn = some es → es ⊆ log.events) ∧
    ∀ m c, Call.produce m c ∈ l.proc.todo → Accepted H log m

theorem faithful_init (stored : Option ℤ) : (init stored).Faithful H log := by
  intro l hl
  cases hl

theorem connect_subset (cursor : Option ℤ) (boundary : Bool) (position : ℕ) :
    log.connect cursor boundary position ⊆ log.events := by
  cases cursor with
  | none => exact List.drop_subset _ _
  | some k => exact List.filter_subset_self _

/-- The process goes on with an action that takes no event. -/
theorem Faithful.proc (h : s.Faithful H log) {l : Life} (hl : s.life = some l) {a : Proc.Act}
    (ha : ∀ event now, a ≠ .recv event now) :
    ∀ m c, Call.produce m c ∈ (l.proc.step H st a).todo → Accepted H log m := by
  intro m c hm
  rcases Proc.produce_step hm with hold | ⟨event, now, rfl, -⟩
  · exact (h l hl).2 m c hold
  · exact absurd rfl (ha event now)

/-- The client yields an event. -/
theorem Faithful.yield (st : IngestSettings) (h : s.Faithful H log) {l : Life} (hl : s.life = some l) {event : Val}
    {rest : List Val} (hconn : l.conn = some (event :: rest)) {act : Proc.Act}
    (hact : act = .stop ∨ ∃ now, act = .recv event now) : Faithful H log { s with
      received := s.received ++ [event]
      life := some ⟨(timeUs event).or l.latest, some rest, l.proc.step H st act⟩ } := by
  have hes := (h l hl).1 _ hconn
  intro l' hl'
  obtain rfl := Option.some.inj hl'
  refine ⟨?_, ?_⟩
  · intro es hes'
    obtain rfl := Option.some.inj hes'
    exact List.Subset.trans (List.subset_cons_self _ _) hes
  · intro m c hm
    rcases Proc.produce_step hm with hold | ⟨event', now, ha, hmodel⟩
    · exact (h l hl).2 m c hold
    · rcases hact with rfl | ⟨now', rfl⟩
      · cases ha
      · cases ha
        exact ⟨event, hes List.mem_cons_self, hmodel⟩

/-- **What a step of the service keeps.** -/
theorem faithful_step (h : s.Faithful H log) (a : Act) : (s.step H st log a).Faithful H log := by
  have hproc : ∀ l, s.life = some l → ∀ (a : Proc.Act) (s' : Service),
      (∀ event now, a ≠ .recv event now) → s'.life = some { l with proc := l.proc.step H st a } →
      s'.Faithful H log := by
    intro l hl a s' ha hs' l' hl'
    obtain rfl := Option.some.inj (hs'.symm.trans hl')
    exact ⟨(h l hl).1, h.proc hl ha⟩
  have hm := move_step H st log s a
  generalize s.step H st log a = s' at hm ⊢
  cases hm with
  | stay => exact h
  | boot =>
    intro l hl
    obtain rfl := Option.some.inj hl
    exact ⟨by simp, by simp [Proc.init]⟩
  | crash =>
    intro l hl
    cases hl
  | @connect l boundary position hlife =>
    intro l' hl'
    obtain rfl := Option.some.inj hl'
    refine ⟨?_, (h l hlife).2⟩
    intro es hes
    obtain rfl := Option.some.inj hes
    exact connect_subset _ _ _
  | @drop l hlife =>
    intro l' hl'
    obtain rfl := Option.some.inj hl'
    exact ⟨by simp, (h l hlife).2⟩
  | recv hlife hconn => exact h.yield st hlife hconn (Or.inr ⟨_, rfl⟩)
  | stop hlife hconn => exact h.yield st hlife hconn (Or.inl rfl)
  | call hlife => exact hproc _ hlife .call _ (by simp) rfl
  | raise hlife => exact hproc _ hlife .raise _ (by simp) rfl
  | @report l i success hlife => exact hproc _ hlife (.report i success) _ (by simp) rfl

/-- What the service hands over is an accepted event. -/
theorem Faithful.hands (h : s.Faithful H log) {a : Act} {m : Event} (hm : s.hands a = some m) :
    Accepted H log m := by
  unfold Service.hands at hm
  split at hm
  · split at hm
    · rename_i l hl
      split at hm
      · rename_i m' c rest ht
        obtain rfl := Option.some.inj hm
        exact (h l hl).2 m' c (by rw [ht]; exact List.mem_cons_self)
      · cases hm
    · cases hm
  · cases hm

end Service

/-! ## An archiver run -/

namespace Run

variable {A : Archiver Row} {deserializer : Deserializer} {st : BronzeSettings} {r : Run Row} {row : Row}

/-- A row held after a poll was held before, or is what the message is decoded into. -/
theorem rows_poll {msg : Option Msg} {now ts now' : ℤ}
    (h : row ∈ (r.poll A deserializer msg now ts now').batch.rows) :
    row ∈ r.batch.rows ∨ ∃ p o value, msg = some ⟨none, some p, some o, value⟩ ∧
      A.decode (BlueskyTrends.deserialize deserializer value) ⟨p, o, ts⟩ = .ok row := by
  match msg with
  | none =>
    simp only [poll] at h
    split at h
    · exact Or.inl h
    · exact Or.inl h
  | some ⟨some .partitionEof, some p, o, v⟩ => exact Or.inl h
  | some ⟨some .partitionEof, none, o, v⟩ => exact Or.inl h
  | some ⟨some .other, p, o, v⟩ => exact Or.inl h
  | some ⟨none, none, o, v⟩ => exact Or.inl h
  | some ⟨none, some p, none, v⟩ => exact Or.inl h
  | some ⟨none, some p, some o, value⟩ =>
    simp only [poll, data] at h
    split at h
    · exact Or.inl h
    · rename_i row' hdec
      have hadd : row ∈ r.batch.rows ++ [row'] := by
        split at h
        · exact h
        · exact h
      rcases List.mem_append.1 hadd with hold | hnew
      · exact Or.inl hold
      · obtain rfl := List.mem_singleton.1 hnew
        exact Or.inr ⟨p, o, value, rfl, hdec⟩

theorem rows_go {now : ℤ} {assignment : List ℤ} (h : row ∈ (r.go A st now assignment).1.batch.rows) :
    row ∈ r.batch.rows := by
  unfold go at h
  cases hctl : r.ctl with
  | top | idle =>
    rw [hctl] at h
    simp only at h
    split at h
    · exact h
    · exact h
  | commit =>
    rw [hctl] at h
    cases h
  | append | send | commitPast | closing | done =>
    rw [hctl] at h
    exact h

theorem rows_raise : r.raise.batch.rows = r.batch.rows := by
  unfold raise
  split
  · rfl
  · rfl
  · rfl

end Run

/-! ## The tables -/

namespace Warehouse

variable {lst : LandingSettings} {V : Vertical Row Stg} {dates : Dates} {w : Warehouse Row Stg}
  {P : Row → Prop} {Q : MartRow → Prop}

/-- The rows copied from bronze are of a kind, the staged ones are selected from such rows, the
mart's meet a bound. -/
structure Of (V : Vertical Row Stg) (P : Row → Prop) (Q : MartRow → Prop) (w : Warehouse Row Stg) : Prop where
  bronze : ∀ r ∈ w.store.bronze, P r
  copied : ∀ r ∈ w.store.copied, P r
  staging : ∀ t ∈ w.staging, ∀ s ∈ t, ∃ r, P r ∧ V.select r = s
  mart : ∀ t ∈ w.mart, ∀ y ∈ t, Q y

theorem of_init : (init [] : Warehouse Row Stg).Of V P Q where
  bronze := by simp [init, Store.init]
  copied := by simp [init, Store.init, Store.copied, Store.pending]
  staging := by simp [init]
  mart := by simp [init]

/-- **Landing runs make up no rows**, nor does a flush of rows of the kind. -/
theorem Of.store (h : w.Of V P Q) {a : StoreAct Row} (ha : ∀ rows, a = .append rows → ∀ r ∈ rows, P r)
    {s' : Store Row} (hm : Store.Move lst w.store a s') : Of V P Q { w with store := s' } where
  bronze := by
    intro r hr
    cases hm with
    | append rows =>
      rcases List.mem_append.1 hr with hr | hr
      · exact h.bronze r hr
      · exact ha rows rfl r hr
    | stay | begin | insert | finish | die => exact h.bronze r hr
  copied := by
    intro r hr
    rcases List.mem_append.1 hr with hr | hr
    · exact h.copied r ((Store.landing_move hm).2 hr)
    · rcases Store.pending_move hm hr with hr | hr
      · exact h.copied r (List.mem_append_right _ hr)
      · exact h.bronze r hr.1
  staging := h.staging
  mart := h.mart

variable [DecidableEq Row] [DecidableEq Stg]

/-- **What a step of the tables keeps**, if mart runs over rows of the kind meet the bound. -/
theorem of_step (h : w.Of V P Q) {a : Act Row Stg} (ha : ∀ rows, a = .store (.append rows) → ∀ r ∈ rows, P r)
    (hQ : ∀ staging, (∀ s ∈ staging, ∃ r, P r ∧ V.select r = s) → ∀ this, ∀ y ∈ V.reaggregated dates staging this,
      Q y) : (w.step lst V dates a).Of V P Q := by
  cases a with
  | store a =>
    refine h.store ?_ (Store.move_step lst w.store a)
    intro rows hrows
    exact ha rows (by rw [hrows])
  | stage rows =>
    by_cases hrows : rows.Perm (w.toStage V)
    · rw [step_stage hrows]
      refine ⟨h.bronze, h.copied, ?_, h.mart⟩
      rintro t ⟨⟩ s hs
      rcases List.mem_append.1 hs with hs | hs
      · cases ht : w.staging with
        | none =>
          rw [ht] at hs
          cases hs
        | some t =>
          rw [ht] at hs
          exact h.staging t ht s hs
      · have hsel : s ∈ w.store.landing.map V.select := by
          have hmem := hrows.mem_iff.1 hs
          rw [toStage] at hmem
          cases ht : w.staging with
          | none =>
            rw [ht] at hmem
            exact hmem
          | some t =>
            rw [ht] at hmem
            exact List.mem_of_mem_filter hmem
        obtain ⟨r, hr, rfl⟩ := List.mem_map.1 hsel
        exact ⟨r, h.copied r (List.mem_append_left _ hr), rfl⟩
    · rw [step, if_neg hrows]
      exact h
  | mart today =>
    cases ht : w.staging with
    | none =>
      simp only [step, ht]
      exact h
    | some staging =>
      rw [step_mart ht]
      refine ⟨h.bronze, h.copied, ?_, ?_⟩
      · intro t ht' s hs
        exact h.staging t ht' s hs
      · rintro t ⟨⟩ y hy
        rcases List.mem_append.1 hy with hy | hy
        · cases hmart : w.mart with
          | none =>
            rw [hmart] at hy
            cases hy
          | some mart =>
            rw [hmart] at hy
            exact h.mart mart hmart y hy
        · exact hQ staging (h.staging staging ht) w.mart y hy
  | mergeStaging i =>
    refine ⟨h.bronze, h.copied, ?_, h.mart⟩
    intro t ht s hs
    obtain ⟨u, hu, rfl⟩ := Option.map_eq_some_iff.1 ht
    exact h.staging u hu s (collapse_sublist.subset hs)
  | mergeMart i =>
    refine ⟨h.bronze, h.copied, h.staging, ?_⟩
    intro t ht y hy
    obtain ⟨u, hu, rfl⟩ := Option.map_eq_some_iff.1 ht
    exact h.mart u hu y (collapse_sublist.subset hy)

end Warehouse

/-! ## What the records of the topic become -/

namespace Deployment

variable {D : Deployment Row Stg Datum} {m : Event} {row : Row}

theorem mem_events : m ∈ D.events ↔ Service.Accepted D.host D.source m ∧ m.kind = D.lane.kind := by
  have haccepts : ∀ e, D.host.accepts e = some m ↔ toModel D.host e = .ok m := by
    intro e
    unfold Host.accepts
    cases toModel D.host e with
    | ok m' => simp
    | error exc => simp
  simp only [events, List.mem_filter, List.mem_filterMap, haccepts, decide_eq_true_eq, Service.Accepted]

/-- The row is of an event of the source, and stamped after the epoch. -/
def FromSource (D : Deployment Row Stg Datum) (row : Row) : Prop :=
  0 < ingestTs row ∧ ∃ m ∈ D.events, D.lane.archived row = m.row D.zone (KafkaRow.base row)

/-- **A message is decoded into the row of its event**, if at all. -/
theorem decode_message (hm : m ∈ D.events) {bytes : Bytes} (hb : D.message m = some bytes) {registry : Bool}
    {base : RowBase}
    (h : D.archiver.decode (BlueskyTrends.deserialize (D.deserialize registry) (some bytes)) base = .ok row) :
    KafkaRow.base row = base ∧ D.lane.archived row = m.row D.zone (KafkaRow.base row) := by
  have hplace := D.archiver.place h
  have hkind := (mem_events.1 hm).2
  obtain ⟨data, hdata, rfl⟩ := Option.map_eq_some_iff.1 hb
  have hlane := D.lane.decodes D.host D.bronze
    (BlueskyTrends.deserialize (D.deserialize registry) (some (D.frame data))) base
  rw [show (D.lane.archiver D.host D.bronze).decode = D.archiver.decode from rfl, h] at hlane
  refine ⟨hplace, ?_⟩
  rw [hplace]
  cases registry with
  | false =>
    -- nothing is read, and nothing is a tombstone
    have hnull : BlueskyTrends.deserialize (D.deserialize false) (some (D.frame data)) = .null := rfl
    rw [hnull] at hlane
    cases hk : D.lane.kind with
    | post | like | follow =>
      rw [hk] at hlane
      cases hlane
  | true =>
    have hread := D.reads m (List.mem_of_mem_filter hm) data hdata
    have hval : BlueskyTrends.deserialize (D.deserialize true) (some (D.frame data)) =
        D.codec.readRecord m.kind.avsc data := by
      rw [BlueskyTrends.deserialize, deserialize, if_pos rfl, hread, Option.getD_some]
    have harchive := archive_eq D.codec D.zone D.host m base
    rw [archive, hdata, Option.map_some, Option.some.injEq] at harchive
    rw [hval, ← hkind, harchive] at hlane
    exact Except.ok.inj hlane

/-- What is selected of a row are the columns and the groups of its event. -/
theorem FromSource.select (h : D.FromSource row) : ∃ m ∈ D.events,
    StgRow.base (D.lane.vertical.select row) = m.stgBase D.zone (ingestTs row) ∧
      D.lane.vertical.groups (D.lane.vertical.select row) = m.groups := by
  obtain ⟨-, m, hm, hrow⟩ := h
  exact ⟨m, hm, D.lane.selects hrow⟩

end Deployment

/-! ## A mart run -/

section

variable {dates : Dates} {groups : Stg → List String} {rows : List Stg} {k : ℕ × String}

/-- A record is counted once for a group where it does not repeat it. -/
theorem tagged_one {s : Stg} (h : (groups s).Nodup) :
    (((groups s).map fun g => ((dayOf dates s, g), (StgRow.base s).did)).filter fun x => x.1 = k).map Prod.snd =
      if dayOf dates s = k.1 ∧ k.2 ∈ groups s then [(StgRow.base s).did] else [] := by
  obtain ⟨day, group⟩ := k
  by_cases hd : dayOf dates s = day
  · have hfilter : (groups s).filter (fun g => decide ((dayOf dates s, g) = (day, group))) =
        (groups s).filter (· == group) := by
      refine List.filter_congr fun g _ => ?_
      rw [Bool.eq_iff_iff]
      simp [hd]
    rw [List.filter_map, List.map_map]
    simp only [Function.comp_def]
    rw [hfilter, List.filter_beq]
    by_cases hmem : group ∈ groups s
    · rw [List.count_eq_one_of_mem h hmem, if_pos ⟨hd, hmem⟩]
      rfl
    · rw [List.count_eq_zero_of_not_mem hmem, if_neg fun hc => hmem hc.2]
      rfl
  · rw [if_neg fun hc => hd hc.1, List.map_eq_nil_iff, List.filter_eq_nil_iff]
    intro x hx
    obtain ⟨g, -, rfl⟩ := List.mem_map.1 hx
    simp [hd]

/-- Where no record repeats a group, a group counts its records. -/
theorem tagged_eq (h : ∀ s ∈ rows, (groups s).Nodup) :
    ((counted dates groups rows).filter fun x => x.1 = k).map Prod.snd =
      (rows.filter fun s => dayOf dates s = k.1 ∧ k.2 ∈ groups s).map fun s => (StgRow.base s).did := by
  induction rows with
  | nil => rfl
  | cons s rows ih =>
    have hone : (((groups s).map fun g => ((dayOf dates s, g), (StgRow.base s).did)).filter fun x => x.1 = k).map
        Prod.snd = if dayOf dates s = k.1 ∧ k.2 ∈ groups s then [(StgRow.base s).did] else [] :=
      tagged_one (h s List.mem_cons_self)
    have hrest := ih fun s' hs' => h s' (List.mem_cons_of_mem _ hs')
    rw [counted] at hrest
    rw [counted, List.flatMap_cons, List.filter_append, List.map_append, hone, hrest, List.filter_cons]
    by_cases hc : dayOf dates s = k.1 ∧ k.2 ∈ groups s
    · rw [if_pos hc, if_pos (decide_eq_true hc)]
      rfl
    · rw [if_neg hc, if_neg (by simpa using hc)]
      rfl

end

/-! ## The pipeline -/

namespace Deployment

variable {D : Deployment Row Stg Datum} {y : MartRow}

/-- The events counted for a group on a day. -/
def eventsOf (D : Deployment Row Stg Datum) (day : ℕ) (group : String) : List Event :=
  D.events.filter fun m => m.day D.dates D.zone = day ∧ group ∈ m.groups

/-- The row counts no more than the distinct authors of its day and group, and, where no event
repeats a group, no more than the distinct records. -/
def Bounded (D : Deployment Row Stg Datum) (y : MartRow) : Prop :=
  y.authors ≤ ((D.eventsOf y.day y.group).map fun m => m.base.did).dedup.length ∧
    ((∀ m ∈ D.events, m.groups.Nodup) → y.count ≤ ((D.eventsOf y.day y.group).map Event.key).dedup.length)

/-- A staged record is an event of its day and groups. -/
theorem staged_event {s : Stg} (h : ∃ r, D.FromSource r ∧ D.lane.vertical.select r = s) : ∃ m ∈ D.events,
    m.key = stgKey s ∧ m.base.did = (StgRow.base s).did ∧ m.day D.dates D.zone = dayOf D.dates s ∧
      m.groups = D.lane.vertical.groups s := by
  obtain ⟨r, hr, rfl⟩ := h
  obtain ⟨m, hm, hbase, hgroups⟩ := hr.select
  refine ⟨m, hm, ?_, ?_, ?_, hgroups.symm⟩
  · rw [stgKey, hbase]
    rfl
  · rw [hbase]
    rfl
  · rw [dayOf, hbase]
    rfl

/-- **A mart run counts no more than there is**, each record being one of staging `FINAL`. -/
theorem bounded_reaggregated {staging : List Stg}
    (hstaging : ∀ s ∈ staging, ∃ r, D.FromSource r ∧ D.lane.vertical.select r = s) (this : Option (List MartRow))
    (hy : y ∈ D.lane.vertical.reaggregated D.dates staging this) : D.Bounded y := by
  have hrows : (window D.dates staging this).Sublist (stgFinal staging) := by
    cases this with
    | none => exact List.Sublist.refl _
    | some this => exact List.filter_sublist
  have hevent : ∀ s ∈ window D.dates staging this, ∃ m ∈ D.events, m.key = stgKey s ∧
      m.base.did = (StgRow.base s).did ∧ m.day D.dates D.zone = dayOf D.dates s ∧
      m.groups = D.lane.vertical.groups s := by
    intro s hs
    exact staged_event (hstaging s (final_subset (hrows.subset hs)))
  have hrow : y = groupRow (counted D.dates D.lane.vertical.groups (window D.dates staging this)) y.key :=
    (mem_aggregate.1 hy).2
  have hcount := congrArg MartRow.count hrow
  have hauthors := congrArg MartRow.authors hrow
  simp only [groupRow] at hcount hauthors
  refine ⟨?_, fun hnodup => ?_⟩
  · rw [hauthors]
    refine ((List.nodup_dedup _).subperm ?_).length_le
    intro did hdid
    obtain ⟨x, hx, rfl⟩ := List.mem_map.1 (List.mem_dedup.1 hdid)
    obtain ⟨hx, hkey⟩ := List.mem_filter.1 hx
    obtain ⟨s, hs, hday, hgroup, hauthor⟩ := mem_counted.1 hx
    rw [decide_eq_true_iff] at hkey
    obtain ⟨m, hm, -, hmdid, hmday, hmgroups⟩ := hevent s hs
    have hmem : m ∈ D.eventsOf y.day y.group := by
      refine List.mem_filter.2 ⟨hm, ?_⟩
      rw [hmday, hmgroups, hday, decide_eq_true_iff]
      rw [hkey] at hgroup ⊢
      exact ⟨rfl, hgroup⟩
    rw [List.mem_dedup, ← hauthor, ← hmdid]
    exact List.mem_map.2 ⟨m, hmem, rfl⟩
  · have hgroups : ∀ s ∈ window D.dates staging this, (D.lane.vertical.groups s).Nodup := by
      intro s hs
      obtain ⟨m, hm, -, -, -, hmgroups⟩ := hevent s hs
      exact hmgroups ▸ hnodup m hm
    set recs := (window D.dates staging this).filter
      fun s => dayOf D.dates s = y.key.1 ∧ y.key.2 ∈ D.lane.vertical.groups s
    have hlen : y.count = (recs.map stgKey).length := by
      rw [hcount, tagged_eq hgroups, List.length_map, List.length_map]
    have hkeys : (recs.map stgKey).Nodup := by
      have hall : ((stgFinal staging).map stgKey).Nodup := nodup_final
      exact hall.sublist ((List.filter_sublist.trans hrows).map _)
    rw [hlen]
    refine (hkeys.subperm ?_).length_le
    intro key hkey
    obtain ⟨s, hs, rfl⟩ := List.mem_map.1 hkey
    obtain ⟨hs, hcond⟩ := List.mem_filter.1 hs
    rw [decide_eq_true_iff] at hcond
    obtain ⟨m, hm, hmkey, -, hmday, hmgroups⟩ := hevent s hs
    have hmem : m ∈ D.eventsOf y.day y.group := by
      refine List.mem_filter.2 ⟨hm, ?_⟩
      rw [hmday, hmgroups, decide_eq_true_iff]
      exact hcond
    rw [List.mem_dedup, ← hmkey]
    exact List.mem_map.2 ⟨m, hmem, rfl⟩

end Deployment

namespace Pipeline

variable {D : Deployment Row Stg Datum} {p : Pipeline Row Stg}

/-- The rows that the archiver runs hold, and those of the tables, are of a kind. -/
structure Holds (V : Vertical Row Stg) (P : Row → Prop) (Q : MartRow → Prop) (p : Pipeline Row Stg) : Prop where
  runs : ∀ i r, p.runs i = some r → ∀ row ∈ r.batch.rows, P row
  tables : p.tables.Of V P Q

section Holds

variable {V : Vertical Row Stg} {P : Row → Prop} {Q : MartRow → Prop}

/-- A run that goes on holds rows of the kind. -/
theorem Holds.update (h : p.Holds V P Q) {i : ℕ} {o : Option (Run Row)}
    (ho : ∀ r, o = some r → ∀ row ∈ r.batch.rows, P row) :
    ∀ j r, Function.update p.runs i o j = some r → ∀ row ∈ r.batch.rows, P row := by
  intro j r hr
  by_cases hj : j = i
  · subst hj
    rw [Function.update_self] at hr
    exact ho r hr
  · rw [Function.update_of_ne hj] at hr
    exact h.runs j r hr

/-- **An archiver run goes on**, and adds what it decodes of a message. -/
theorem Holds.archive (h : p.Holds V P Q) {i : ℕ} {deserializer : Deserializer} {a : World.RunAct}
    {w : Lake Row} (hw : p.lake.archive D.archiver deserializer D.bronze i a = w)
    (hpoll : ∀ part o value now ts now', a = .poll (some ⟨none, some part, some o, value⟩) now ts now' →
      p.clock ≤ ts → w.clock = ts → ∀ row,
        D.archiver.decode (BlueskyTrends.deserialize deserializer value) ⟨part, o, ts⟩ = .ok row → P row) :
    (p.withLake w).Holds V P Q := by
  subst hw
  cases a with
  | poll msg now ts now' =>
    simp only [Lake.archive] at hpoll ⊢
    split
    · rename_i r hr
      by_cases hok : r.ctl = .top ∧ r.goesOn D.bronze ∧ p.lake.clock ≤ ts
      · rw [hr] at hpoll
        simp only [if_pos hok] at hpoll ⊢
        refine ⟨h.update ?_, h.tables⟩
        intro r' hr' row hrow
        obtain rfl := Option.some.inj hr'
        rcases Run.rows_poll hrow with hold | ⟨part, o, value, rfl, hdec⟩
        · exact h.runs i r hr row hold
        · exact hpoll part o value now ts now' rfl hok.2.2 rfl row hdec
      · rw [if_neg hok]
        exact ⟨h.runs, h.tables⟩
    · exact ⟨h.runs, h.tables⟩
  | go now assignment =>
    cases hr : p.runs i with
    | none =>
      have hsame : p.lake.archive D.archiver deserializer D.bronze i (.go now assignment) = p.lake := by
        simp only [Lake.archive, lake, hr]
      rw [hsame]
      exact ⟨h.runs, h.tables⟩
    | some r =>
      have hgo : p.lake.archive D.archiver deserializer D.bronze i (.go now assignment) =
          p.lake.go D.archiver D.bronze i r now assignment := by
        simp only [Lake.archive, lake, hr]
      have hrows := h.runs i r hr
      have hupdate : ∀ r' : Run Row, r'.batch.rows ⊆ r.batch.rows →
          ∀ j r'', Function.update p.runs i (some r') j = some r'' → ∀ row ∈ r''.batch.rows, P row := by
        intro r' hsub
        refine h.update ?_
        intro r'' hr'' row hrow
        obtain rfl := Option.some.inj hr''
        exact hrows row (hsub hrow)
      rw [hgo]
      rcases p.lake.go_cases D.archiver D.bronze i r now assignment with ⟨-, -, hstep⟩ | ⟨-, r', hr', hstep⟩
      · rw [hstep]
        refine ⟨hupdate _ fun row hrow => Run.rows_go hrow, ?_⟩
        have hmove : Store.Move D.landing p.tables.store (.append r.batch.rows)
            (p.tables.store.append r.batch.rows) := .append r.batch.rows
        refine h.tables.store ?_ hmove
        rintro rows ⟨⟩
        exact hrows
      · rw [hstep]
        refine ⟨hupdate r' ?_, h.tables⟩
        rcases hr' with rfl | rfl
        · rw [Run.rows_raise]
          exact List.Subset.refl _
        · exact fun row hrow => Run.rows_go hrow
  | raise =>
    simp only [Lake.archive, lake]
    refine ⟨h.update ?_, h.tables⟩
    intro r' hr' row hrow
    obtain ⟨r, hr, rfl⟩ := Option.map_eq_some_iff.1 hr'
    rw [Run.rows_raise] at hrow
    exact h.runs i r hr row hrow
  | report i success => exact ⟨h.runs, h.tables⟩

variable [DecidableEq Row] [DecidableEq Stg]

/-- **What a step keeps of the rows**, if what is decoded is of the kind and mart runs over rows of it
meet the bound. -/
theorem Holds.step (h : p.Holds D.lane.vertical P Q) (a : Act Row Stg)
    (hpoll : ∀ i registry part o value now ts now',
      a = .archive i registry (.poll (some ⟨none, some part, some o, value⟩) now ts now') →
      p.topic.log part o = some value → p.clock ≤ ts → (p.step D a).clock = ts → ∀ row,
        D.archiver.decode (BlueskyTrends.deserialize (D.deserialize registry) value) ⟨part, o, ts⟩ = .ok row → P row)
    (hQ : ∀ staging, (∀ s ∈ staging, ∃ r, P r ∧ D.lane.vertical.select r = s) → ∀ this,
      ∀ y ∈ D.lane.vertical.reaggregated D.dates staging this, Q y) :
    (p.step D a).Holds D.lane.vertical P Q := by
  cases a with
  | service a => exact ⟨h.runs, h.tables⟩
  | broker i partition skip =>
    simp only [Pipeline.step]
    split
    · split
      · split <;> exact ⟨h.runs, h.tables⟩
      · exact h
    · exact h
  | start i now now' =>
    simp only [Pipeline.step]
    split
    · refine ⟨h.update ?_, h.tables⟩
      intro r hr row hrow
      obtain rfl := Option.some.inj hr
      cases hrow
    · exact h
  | archive i registry a =>
    simp only [Pipeline.step] at hpoll ⊢
    split
    · rename_i hd
      rw [if_pos hd] at hpoll
      refine h.archive rfl ?_
      rintro part o value now ts now' rfl
      exact hpoll i registry part o value now ts now' rfl hd
    · exact h
  | crash i =>
    refine ⟨h.update ?_, h.tables⟩
    intro r hr
    cases hr
  | table a =>
    have htables : ∀ a : Warehouse.Act Row Stg, (∀ rows, a ≠ .store (.append rows)) →
        Holds D.lane.vertical P Q { p with tables := p.tables.step D.landing D.lane.vertical D.dates a } := by
      intro a ha
      refine ⟨h.runs, Warehouse.of_step h.tables ?_ hQ⟩
      intro rows hrows
      exact absurd hrows (ha rows)
    cases a with
    | store a =>
      cases a with
      | append rows => exact h
      | land a => exact htables _ (by simp)
      | die i => exact htables _ (by simp)
    | stage rows => exact htables _ (by simp)
    | mart today => exact htables _ (by simp)
    | mergeStaging i => exact htables _ (by simp)
    | mergeMart i => exact htables _ (by simp)

/-- The clock does not go back. -/
theorem clock_le_step (D : Deployment Row Stg Datum) (p : Pipeline Row Stg) (a : Act Row Stg) :
    p.clock ≤ (p.step D a).clock := by
  cases a with
  | archive i registry a =>
    simp only [Pipeline.step]
    split
    · cases a with
      | poll msg now ts now' =>
        simp only [Lake.archive]
        split
        · split
          · rename_i hok
            exact hok.2.2
          · exact le_rfl
        · exact le_rfl
      | go now assignment =>
        simp only [Lake.archive]
        split
        · exact (p.lake.go_clock ..).ge
        · exact le_rfl
      | raise => exact le_rfl
      | report i success => exact le_rfl
    · exact le_rfl
  | broker i partition skip =>
    simp only [Pipeline.step]
    split
    · split
      · split <;> exact le_rfl
      · exact le_rfl
    · exact le_rfl
  | start i now now' =>
    simp only [Pipeline.step]
    split <;> exact le_rfl
  | table a =>
    cases a with
    | store a => cases a <;> exact le_rfl
    | stage | mart | mergeStaging | mergeMart => exact le_rfl
  | service a => exact le_rfl
  | crash i => exact le_rfl

/-- What comes after the topic does not change what comes before. -/
theorem step_front (D : Deployment Row Stg Datum) (p : Pipeline Row Stg) {a : Act Row Stg}
    (hservice : ∀ b, a ≠ .service b) (hbroker : ∀ i q k, a ≠ .broker i q k) : (p.step D a).service = p.service ∧
      (p.step D a).handed = p.handed ∧ (p.step D a).topic = p.topic := by
  cases a with
  | service a => exact absurd rfl (hservice a)
  | broker i partition skip => exact absurd rfl (hbroker i partition skip)
  | start i now now' =>
    simp only [Pipeline.step]
    split <;> exact ⟨rfl, rfl, rfl⟩
  | archive i registry a =>
    simp only [Pipeline.step]
    split <;> exact ⟨rfl, rfl, rfl⟩
  | crash i => exact ⟨rfl, rfl, rfl⟩
  | table a =>
    cases a with
    | store a => cases a <;> exact ⟨rfl, rfl, rfl⟩
    | stage | mart | mergeStaging | mergeMart => exact ⟨rfl, rfl, rfl⟩

end Holds

/-- What every part holds is of the source. -/
structure Sourced (D : Deployment Row Stg Datum) (p : Pipeline Row Stg) : Prop where
  service : p.service.Faithful D.host D.source
  handed : ∀ m ∈ p.handed, Service.Accepted D.host D.source m
  topic : ∀ part o value, p.topic.log part o = some value →
    ∃ m ∈ D.events, ∃ bytes, D.message m = some bytes ∧ value = some bytes
  clock : 0 < p.clock
  runs : ∀ i r, p.runs i = some r → ∀ row ∈ r.batch.rows, D.FromSource row
  tables : p.tables.Of D.lane.vertical D.FromSource D.Bounded

theorem sourced_init (stored : Option ℤ) : (init D stored).Sourced D where
  service := Service.faithful_init stored
  handed := by simp [init]
  topic := by simp [init, emptyTopic]
  clock := D.afterEpoch
  runs := by simp [init]
  tables := Warehouse.of_init

/-- **What is decoded of the topic is of the source.** -/
theorem Sourced.decoded (h : p.Sourced D) {registry : Bool} {part : ℤ} {o : ℕ} {value : Option Bytes} {ts : ℤ}
    {row : Row} (hlog : p.topic.log part o = some value) (hts : p.clock ≤ ts)
    (hdec : D.archiver.decode (BlueskyTrends.deserialize (D.deserialize registry) value) ⟨part, o, ts⟩ = .ok row) :
    D.FromSource row := by
  obtain ⟨m, hm, bytes, hbytes, rfl⟩ := h.topic part o value hlog
  obtain ⟨hbase, harchived⟩ := Deployment.decode_message hm hbytes hdec
  refine ⟨?_, m, hm, harchived⟩
  have hclock := h.clock
  rw [ingestTs, hbase]
  simp only
  omega

variable [DecidableEq Row] [DecidableEq Stg]

/-- **What a step of the pipeline keeps.** -/
theorem sourced_step (h : p.Sourced D) (a : Act Row Stg) : (p.step D a).Sourced D := by
  have hholds : (p.step D a).Holds D.lane.vertical D.FromSource D.Bounded :=
    Holds.step ⟨h.runs, h.tables⟩ a (fun _ _ _ _ _ _ _ _ _ hlog hts _ _ hdec => h.decoded hlog hts hdec)
      fun _ hstaging this _ hy => Deployment.bounded_reaggregated hstaging this hy
  have hclock : 0 < (p.step D a).clock := h.clock.trans_le (clock_le_step D p a)
  -- only the service and the broker touch what comes before the archiver
  have hfront : (∀ b, a ≠ .service b) → (∀ i q k, a ≠ .broker i q k) → (p.step D a).Sourced D := by
    intro hservice hbroker
    obtain ⟨hs, hh, ht⟩ := step_front D p hservice hbroker
    exact ⟨hs ▸ h.service, hh ▸ h.handed, ht ▸ h.topic, hclock, hholds.runs, hholds.tables⟩
  cases a with
  | service a =>
    refine ⟨Service.faithful_step h.service a, ?_, h.topic, hclock, h.runs, h.tables⟩
    intro m hm
    rcases List.mem_append.1 hm with hm | hm
    · exact h.handed m hm
    · exact h.service.hands (Option.mem_toList.1 hm)
  | broker i partition skip =>
    simp only [step]
    split
    · rename_i m hm
      split
      · rename_i bytes hbytes
        split
        · rename_i hkind
          refine ⟨h.service, h.handed, ?_, h.clock, h.runs, h.tables⟩
          intro part o value hv
          simp only [Topic.produce] at hv
          split at hv
          · have hmem : m ∈ D.events :=
              Deployment.mem_events.2 ⟨h.handed m (List.mem_of_getElem? hm), hkind⟩
            exact ⟨m, hmem, bytes, hbytes, (Option.some.inj hv).symm⟩
          · exact h.topic part o value hv
        · exact h
      · exact h
    · exact h
  | start | archive | crash | table => exact hfront (by simp) (by simp)

theorem sourced_run (D : Deployment Row Stg Datum) (stored : Option ℤ) (as : List (Act Row Stg)) :
    (Trace.run (step D) (init D stored) as).Sourced D :=
  Trace.run_inv (I := Sourced D) (fun _ a h => sourced_step h a) (sourced_init stored) as

end Pipeline

/-- **No replay is counted.** In every state, a row of the mart counts no more authors than its day
and group have in the source, and, where no event declares a group twice, no more records. -/
theorem mart_never_inflated [DecidableEq Row] [DecidableEq Stg] (D : Deployment Row Stg Datum) (stored : Option ℤ)
    (as : List (Pipeline.Act Row Stg)) :
    ∀ t ∈ (Trace.run (Pipeline.step D) (.init D stored) as).tables.mart, ∀ y ∈ t,
      y.authors ≤ ((D.eventsOf y.day y.group).map fun m => m.base.did).dedup.length ∧
      ((∀ m ∈ D.events, m.groups.Nodup) →
        y.count ≤ ((D.eventsOf y.day y.group).map Event.key).dedup.length) :=
  (Pipeline.sourced_run D stored as).tables.mart

/-- The frame of the one post of `onePost`, and what is read of it. -/
def oneFrame : Bytes := [0, 0, 0, 0, 1]

def oneRecord : Val := .dict [("did", .str "did:plc:author123"), ("rkey", .str "3kpostrkey"), ("cid", .str "bafypost"),
  ("created_at", .datetime ⟨1704067200000000, some 0⟩), ("text", .str "one"), ("langs", .null),
  ("reply_parent", .null), ("reply_root", .null)]

/-- A source with one post. -/
def onePost : SourceLog where
  events := [postEvent 10 (.str "one")]
  timed := by decide
  sorted := by decide

def oneDeployment : Deployment BronzeRow StgPost AvroDatum where
  lane := postsLane
  host := asciiHost
  zone := .fixed 0 (by decide)
  ingest := everyAck
  bronze := defaultSettings
  landing := rowByRow
  dates := .integer utcDay
  source := onePost
  codec := AvroDatum.codec
  frame _ := oneFrame
  deserializer value := if value = some oneFrame then some oneRecord else none
  reads := by
    intro m hm data hdata
    obtain rfl := List.mem_singleton.1 hm
    obtain rfl := Option.some.inj hdata
    rfl
  clock := 1
  afterEpoch := by decide

/-- The row of the post, at an offset and stamped. -/
def oneRow (offset : ℕ) (ts : ℤ) : BronzeRow :=
  ⟨⟨0, offset, ts⟩, "did:plc:author123", "3kpostrkey", "bafypost", ⟨1704067200000000, some 0⟩, "one", [], none, none⟩

/-- The post is produced, the service crashes and produces it again; both records are archived and
landed. -/
def producedTwice : List (Pipeline.Act BronzeRow StgPost) :=
  [.service (.boot 0), .service (.connect false 0), .service (.recv 0), .service .call, .service .call, .service .crash,
    .service (.boot 0), .service (.connect false 0), .service (.recv 0), .service .call, .service .call,
    .broker 0 0 0, .broker 1 0 0, .start 0 0 0,
    .archive 0 true (.poll (messageAt 0 oneFrame) 0 1 0), .archive 0 true (.poll (messageAt 1 oneFrame) 0 2 0),
    .archive 0 true (.poll none 5000000000 2 0), .archive 0 true (.go 0 []), .archive 0 true (.go 0 []),
    .table (.store (.land (.begin [oneRow 1 2, oneRow 0 1]))), .table (.store (.land (.insert 0))),
    .table (.store (.land (.insert 0))), .table (.store (.land (.finish 0)))]

/-- Both records are staged and the mart has run. -/
def countedOnce : Pipeline BronzeRow StgPost :=
  Trace.run (Pipeline.step oneDeployment) (.init oneDeployment (some 5)) (producedTwice ++
    [.table (.stage [posts.select (oneRow 1 2), posts.select (oneRow 0 1)]), .table (.mart 19723)])

theorem mart_never_inflated_twice : countedOnce.tables.staging.map List.length = some 2 ∧
    countedOnce.tables.mart = some [⟨19723, "und", 1, 1⟩] ∧
    1 ≤ ((oneDeployment.eventsOf 19723 "und").map Event.key).dedup.length := by
  have hmart : countedOnce.tables.mart = some [⟨19723, "und", 1, 1⟩] := by decide
  have hnodup : ∀ m ∈ oneDeployment.events, m.groups.Nodup := by
    intro m hm
    obtain rfl := List.mem_singleton.1 hm
    decide
  have hall := mart_never_inflated oneDeployment (some 5) (producedTwice ++
    [.table (.stage [posts.select (oneRow 1 2), posts.select (oneRow 0 1)]), .table (.mart 19723)])
  rw [← countedOnce, hmart] at hall
  obtain ⟨-, hcount⟩ := hall _ rfl ⟨19723, "und", 1, 1⟩ List.mem_cons_self
  exact ⟨by decide, hmart, hcount hnodup⟩

end BlueskyTrends
