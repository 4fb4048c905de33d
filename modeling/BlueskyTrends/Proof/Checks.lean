import BlueskyTrends.Dbt.Checks
import BlueskyTrends.Proof.Archived
import BlueskyTrends.Proof.EndToEnd
import BlueskyTrends.Proof.Idempotence

/-!
# What the checks tell

The checks read tables in which records are repeated, superseded and merged in the background. What
they report is nevertheless about the events of the source.

* `tables_grow`: no step takes a row from bronze or a key from staging.
* `null_rate_counts_source`: **the null-rate check counts the events with an empty key**, once all
  are staged.
* `null_rate_stays`: **one empty `did` or `rkey` fails it from then on.**
* `freshness_run`: **an event dated ahead keeps bronze fresh** until a day after its date.
* `checks_merged`: **merges change no report.**
* `volume_counts_source`: **the volume check counts the groups of the source**, after a rebuild of
  the mart.
-/

namespace BlueskyTrends

open HighWater Replacing

variable {Row Stg Datum : Type} [KafkaRow Row] [StgRow Stg]

/-! ## Tables grow -/

namespace Warehouse

variable {lst : LandingSettings} {V : Vertical Row Stg} {dates : Dates} {w : Warehouse Row Stg}

/-- The keys staged. -/
def stagedKeys (w : Warehouse Row Stg) : List (String × String) := (w.staging.getD []).map stgKey

/-- The tables later on. -/
structure Grows (w w' : Warehouse Row Stg) : Prop where
  bronze : w.store.bronze ⊆ w'.store.bronze
  staged : w.staging.isSome → w'.staging.isSome
  keys : w.stagedKeys ⊆ w'.stagedKeys

omit [KafkaRow Row] in
theorem Grows.refl (w : Warehouse Row Stg) : Grows w w := ⟨List.Subset.refl _, id, List.Subset.refl _⟩

omit [KafkaRow Row] in
theorem Grows.trans {w₁ w₂ w₃ : Warehouse Row Stg} (h : Grows w₁ w₂) (h' : Grows w₂ w₃) : Grows w₁ w₃ :=
  ⟨List.Subset.trans h.bronze h'.bronze, h'.staged ∘ h.staged, List.Subset.trans h.keys h'.keys⟩

/-- Landing runs and flushes. -/
theorem grows_store {a : StoreAct Row} {s' : Store Row} (hm : Store.Move lst w.store a s') :
    Grows w { w with store := s' } := by
  refine ⟨?_, id, List.Subset.refl _⟩
  cases hm with
  | append rows => exact List.subset_append_left _ _
  | stay | begin | insert | finish | die => exact List.Subset.refl _

variable [DecidableEq Row] [DecidableEq Stg]

/-- **No step takes a row from bronze or a key from staging**: a merge drops a row whose key stays. -/
theorem grows_step (lst : LandingSettings) (V : Vertical Row Stg) (dates : Dates) (w : Warehouse Row Stg)
    (a : Act Row Stg) : Grows w (w.step lst V dates a) := by
  cases a with
  | store a => exact grows_store (Store.move_step lst w.store a)
  | stage rows =>
    by_cases hrows : rows.Perm (w.toStage V)
    · rw [step_stage hrows]
      refine ⟨List.Subset.refl _, fun _ => rfl, ?_⟩
      unfold stagedKeys
      rw [Option.getD_some, List.map_append]
      exact List.subset_append_left _ _
    · rw [step, if_neg hrows]
      exact Grows.refl w
  | mart today =>
    refine ⟨?_, ?_, ?_⟩
    · rw [step_mart_store]
      exact List.Subset.refl _
    · rw [step_mart_staging]
      exact id
    · unfold stagedKeys
      rw [step_mart_staging]
      exact List.Subset.refl _
  | mergeStaging i =>
    refine ⟨List.Subset.refl _, ?_, ?_⟩
    · intro h
      rw [step, Option.isSome_map]
      exact h
    · unfold stagedKeys
      cases ht : w.staging with
      | none => simp
      | some t =>
        rw [step, ht, Option.map_some, Option.getD_some, Option.getD_some]
        intro k hk
        obtain ⟨s, hs, rfl⟩ := List.mem_map.1 hk
        obtain ⟨z, hz, hzk, -⟩ := exists_collapse stgKey stgTs i hs
        exact List.mem_map.2 ⟨z, hz, hzk⟩
  | mergeMart i => exact ⟨List.Subset.refl _, id, List.Subset.refl _⟩

end Warehouse

namespace Pipeline

variable {D : Deployment Row Stg Datum} {p : Pipeline Row Stg} [DecidableEq Row] [DecidableEq Stg]

theorem grows_step (D : Deployment Row Stg Datum) (p : Pipeline Row Stg) (a : Act Row Stg) :
    p.tables.Grows (p.step D a).tables := by
  cases a with
  | service a => exact .refl _
  | broker i partition skip =>
    simp only [step]
    split
    · split
      · split
        · exact .refl _
        · exact .refl _
      · exact .refl _
    · exact .refl _
  | start i now now' =>
    simp only [step]
    split
    · exact .refl _
    · exact .refl _
  | archive i registry a =>
    simp only [step]
    split
    · rw [withLake_tables]
      rcases archive_store p.lake D.archiver (D.deserialize registry) D.bronze i a with hs | ⟨r, -, hs⟩
      · rw [hs]
        exact .refl _
      · rw [hs]
        have hmove : Store.Move D.landing p.tables.store (.append r.batch.rows)
            (p.tables.store.append r.batch.rows) := .append r.batch.rows
        exact Warehouse.grows_store hmove
    · exact .refl _
  | crash i => exact .refl _
  | table a =>
    have htables := Warehouse.grows_step D.landing D.lane.vertical D.dates p.tables a
    cases a with
    | store a =>
      cases a with
      | append rows => exact .refl _
      | land a => exact htables
      | die i => exact htables
    | stage rows => exact htables
    | mart today => exact htables
    | mergeStaging i => exact htables
    | mergeMart i => exact htables

/-- **The tables only grow.** -/
theorem tables_grow (D : Deployment Row Stg Datum) (p : Pipeline Row Stg) (as : List (Act Row Stg)) :
    p.tables.Grows (Trace.run (step D) p as).tables :=
  Trace.run_inv (I := fun q => p.tables.Grows q.tables) (fun q a h => h.trans (grows_step D q a)) (.refl _) as

end Pipeline

/-! ## Null rate -/

/-- An event with an empty `did`, `rkey` or `cid`. -/
def Event.EmptyKey (m : Event) : Prop := m.base.did = "" ∨ m.base.rkey = "" ∨ m.base.cid = ""

instance : DecidablePred Event.EmptyKey := fun m => by
  unfold Event.EmptyKey
  infer_instance

theorem nullRate_passed_iff {rows : List Stg} : (stgNullRate rows).passed = true ↔ ∀ s ∈ rows, ¬ EmptyKey s := by
  unfold stgNullRate
  rw [decide_eq_true_iff, List.countP_eq_zero]
  simp only [decide_eq_true_iff]

/-- A staged row has an empty key where its event does. -/
theorem Deployment.emptyKey_iff {D : Deployment Row Stg Datum} {s : Stg}
    (h : ∃ r, D.FromSource r ∧ D.lane.vertical.select r = s) :
    ∃ m ∈ D.events, m.key = stgKey s ∧ (m.EmptyKey ↔ EmptyKey s) := by
  obtain ⟨r, hr, rfl⟩ := h
  obtain ⟨m, hm, hbase, -⟩ := hr.select
  refine ⟨m, hm, ?_, ?_⟩
  · unfold stgKey
    rw [hbase]
    rfl
  · unfold BlueskyTrends.EmptyKey
    rw [hbase]
    exact Iff.rfl

/-- **The check counts the events with an empty key.** Where a `(did, rkey)` identifies an event:
once every accepted event is landed and staging has run, the number reported is that of the distinct
accepted events whose `did`, `rkey` or `cid` is empty, and the check passes exactly when there is
none. -/
theorem null_rate_counts_source [DecidableEq Row] [DecidableEq Stg] (D : Deployment Row Stg Datum)
    (hid : D.Identified) (stored : Option ℤ) (as : List (Pipeline.Act Row Stg))
    (hapart : Trace.Along (Pipeline.step D) Pipeline.Apart (.init D stored) as)
    (hall : (Trace.run (Pipeline.step D) (.init D stored) as).CaughtUp D) (rows : List Stg)
    (hrows : rows.Perm ((Trace.run (Pipeline.step D) (.init D stored) as).tables.toStage D.lane.vertical))
    (stg : String) :
    ∃ t, (Trace.run (Pipeline.step D) (.init D stored) (as ++ [.table (.stage rows)])).tables.staging = some t ∧
      ((nullRateCheck stg).run t).metadata =
        [("empty_key_rows", .int (D.events.dedup.countP fun m => m.EmptyKey))] ∧
      (((nullRateCheck stg).run t).passed = true ↔ ∀ m ∈ D.events, ¬ m.EmptyKey) := by
  set w := (Trace.run (Pipeline.step D) (.init D stored) as).tables
  set t := w.staging.getD [] ++ rows
  have hstaged : w.Staged D.lane.vertical := Pipeline.staged_run D stored hapart
  have hof := (Pipeline.sourced_run D stored as).tables
  have hnewest := hstaged.newestWins hrows
  have hevent : ∀ s ∈ stgFinal t, ∃ m ∈ D.events.dedup, m.key = stgKey s ∧
      decide m.EmptyKey = decide (EmptyKey s) := by
    intro s hs
    obtain ⟨r, hr, hsel⟩ := hstaged.source_stage hrows s (final_subset hs)
    have hsource := hof.copied r (List.mem_append_left _ hr)
    obtain ⟨m, hm, hkey, hempty⟩ := Deployment.emptyKey_iff ⟨r, hsource, hsel⟩
    exact ⟨m, List.mem_dedup.2 hm, hkey, decide_eq_decide.2 hempty⟩
  -- staging and the source have the same empty keys
  have hperm : ((stgFinal t).map fun s => decide (EmptyKey s)).Perm
      (D.events.dedup.map fun m => decide m.EmptyKey) := by
    refine map_perm_of_key hnewest.once (Deployment.nodup_keys hid) hevent ?_
    intro m hm
    exact Deployment.staged_key (hall m (List.mem_dedup.1 hm)) hnewest
  have hcount : ((stgFinal t).countP fun s => EmptyKey s) = D.events.dedup.countP fun m => m.EmptyKey := by
    have htrue := hperm.countP_eq id
    rw [List.countP_map, List.countP_map] at htrue
    exact htrue
  refine ⟨t, ?_, ?_, ?_⟩
  · rw [Trace.run_append]
    simp only [Trace.run_cons, Trace.run_nil, Pipeline.step]
    rw [Warehouse.step_stage hrows]
  · change [("empty_key_rows", MetadataValue.int ((stgFinal t).countP fun s => EmptyKey s))] = _
    rw [hcount]
  · change decide (((stgFinal t).countP fun s => EmptyKey s) = 0) = true ↔ _
    rw [hcount, decide_eq_true_iff, List.countP_eq_zero]
    simp only [List.mem_dedup, decide_eq_true_iff]

/-- **A failure is an event, and an empty key stays.** In every state of every run a failing check
is due to an accepted event of the source with an empty key; and once a row with an empty `did` or
`rkey` is staged, the check fails in every later state. -/
theorem null_rate_stays [DecidableEq Row] [DecidableEq Stg] (D : Deployment Row Stg Datum) (stored : Option ℤ)
    (as bs : List (Pipeline.Act Row Stg)) (stg : String) :
    let p := Trace.run (Pipeline.step D) (.init D stored) as
    let q := Trace.run (Pipeline.step D) (.init D stored) (as ++ bs)
    (∀ t ∈ p.tables.staging, ((nullRateCheck stg).run t).passed = false → ∃ m ∈ D.events, m.EmptyKey) ∧
      (∀ t ∈ p.tables.staging, (∃ s ∈ t, (StgRow.base s).did = "" ∨ (StgRow.base s).rkey = "") →
        ∃ t' ∈ q.tables.staging, ((nullRateCheck stg).run t').passed = false) := by
  intro p q
  have hfails : ∀ t : List Stg, ((nullRateCheck stg).run t).passed = false ↔ ∃ s ∈ stgFinal t, EmptyKey s := by
    intro t
    rw [← Bool.not_eq_true]
    change ¬ (stgNullRate (stgFinal t)).passed = true ↔ _
    rw [nullRate_passed_iff]
    simp only [not_forall, not_not, exists_prop]
  constructor
  · intro t ht hfail
    obtain ⟨s, hs, hempty⟩ := (hfails t).1 hfail
    have hsource := (Pipeline.sourced_run D stored as).tables.staging t ht s (final_subset hs)
    obtain ⟨m, hm, -, hiff⟩ := Deployment.emptyKey_iff hsource
    exact ⟨m, hm, hiff.2 hempty⟩
  · rintro t ht ⟨s, hs, hempty⟩
    have hgrows : p.tables.Grows q.tables := by
      have hrun := Pipeline.tables_grow D p bs
      rwa [← Trace.run_append] at hrun
    obtain ⟨t', ht'⟩ := Option.isSome_iff_exists.1 (hgrows.staged (Option.isSome_of_mem ht))
    -- the key is still staged, and what it reads as has it
    have hkey : stgKey s ∈ (stgFinal t').map stgKey := by
      have hmem : stgKey s ∈ p.tables.stagedKeys := by
        unfold Warehouse.stagedKeys
        rw [ht]
        exact List.mem_map.2 ⟨s, hs, rfl⟩
      have hlater := hgrows.keys hmem
      unfold Warehouse.stagedKeys at hlater
      rw [ht'] at hlater
      exact mem_map_final.2 hlater
    obtain ⟨s', hs', hsame⟩ := List.mem_map.1 hkey
    refine ⟨t', ht', (hfails t').2 ⟨s', hs', ?_⟩⟩
    obtain ⟨hdid, hrkey⟩ := Prod.mk.inj hsame
    rcases hempty with h | h
    · exact Or.inl (hdid.trans h)
    · exact Or.inr (Or.inl (hrkey.trans h))

/-- Of the two posts, the first of which is landed and staged twice, one has an empty key. -/
theorem null_rate_counts_source_twice :
    ∃ t, (Trace.run (Pipeline.step twoDayDeployment) (.init twoDayDeployment (some 5)) (twoDayRun ++
        [.table (.stage twoDayStage)])).tables.staging = some t ∧
      (checkStgNullRate.run t).metadata = [("empty_key_rows", .int 1)] ∧ (checkStgNullRate.run t).passed = false := by
  obtain ⟨t, ht, hcount, hpassed⟩ := null_rate_counts_source twoDayDeployment identified_twoDayDeployment (some 5)
    twoDayRun apart_twoDayRun caughtUp_caughtUpTwoDays twoDayStage toStage_twoDayRun "stg_posts"
  have hempty : ¬ ∀ m ∈ twoDayDeployment.events, ¬ m.EmptyKey := by decide
  exact ⟨t, ht, hcount, Bool.eq_false_iff.2 fun h => hempty (hpassed.1 h)⟩

/-! ## Freshness -/

/-- A day, in microseconds. -/
def dayMicros : ℤ := 86400000000

theorem freshness_passed_iff {now : ℤ} {createdAt : List ℤ} :
    (bronzeFreshness now createdAt).passed = true ↔ ∃ t ∈ createdAt, now - t ≤ dayMicros := by
  have hlag : ∀ newest : ℤ, ((now - newest : ℚ) / 1000000 ≤ (bronzeFreshnessMaxLagS : ℚ)) ↔
      now - newest ≤ dayMicros := by
    intro newest
    unfold bronzeFreshnessMaxLagS dayMicros
    rw [div_le_iff₀ (by norm_num)]
    constructor
    · intro h
      have hcast : ((now - newest : ℤ) : ℚ) ≤ ((86400000000 : ℤ) : ℚ) := by
        push_cast at h ⊢
        linarith
      exact Int.cast_le.1 hcast
    · intro h
      have hcast : ((now - newest : ℤ) : ℚ) ≤ ((86400000000 : ℤ) : ℚ) := Int.cast_le.2 h
      push_cast at hcast ⊢
      linarith
  unfold bronzeFreshness
  cases hmax : createdAt.max? with
  | none =>
    have hnil : createdAt = [] := List.max?_eq_none_iff.1 hmax
    subst hnil
    simp
  | some newest =>
    obtain ⟨hmem, hle⟩ := List.max?_eq_some_iff.1 hmax
    simp only [decide_eq_true_iff]
    rw [hlag]
    constructor
    · intro h
      exact ⟨newest, hmem, h⟩
    · rintro ⟨t, ht, h⟩
      have hnewest := hle t ht
      omega

/-- The freshness check of the bronze table of a lane. -/
def Lane.freshness (lane : Lane Row Stg) (asset : String) : AssetCheck (ℤ × List Row) :=
  freshnessCheck asset fun r => (lane.archived r).createdAt

example : postsLane.freshness "posts_bronze" = checkBronzeFreshness := rfl
example : likesLane.freshness "likes_bronze" = checkLikesBronzeFreshness := rfl
example : followsLane.freshness "follows_bronze" = checkFollowsBronzeFreshness := rfl

theorem Lane.freshness_passed_iff {lane : Lane Row Stg} {asset : String} {now : ℤ} {bronze : List Row} :
    ((lane.freshness asset).run (now, bronze)).passed = true ↔
      ∃ r ∈ bronze, now - (lane.archived r).createdAt.utcMicros ≤ dayMicros := by
  unfold Lane.freshness freshnessCheck
  rw [BlueskyTrends.freshness_passed_iff]
  simp only [List.mem_map, exists_exists_and_eq_and]

/-- **Freshness is the date an event gives itself.** In every run: where the check passes, an
accepted event of the source is dated no more than a day before; and an archived event keeps it
passing, in every later state and at every time until a day after its date, however far ahead that
is and whatever else is archived. -/
theorem freshness_run [DecidableEq Row] [DecidableEq Stg] (D : Deployment Row Stg Datum) (stored : Option ℤ)
    (as bs : List (Pipeline.Act Row Stg)) (asset : String) (now : ℤ) :
    let check := (D.lane.freshness asset).run
    let bronze := (Trace.run (Pipeline.step D) (.init D stored) as).tables.store.bronze
    let later := (Trace.run (Pipeline.step D) (.init D stored) (as ++ bs)).tables.store.bronze
    ((check (now, bronze)).passed = true → ∃ m ∈ D.events, now - m.createdAt.instant D.zone ≤ dayMicros) ∧
      ∀ r ∈ bronze, ∃ m ∈ D.events, D.lane.archived r = m.row D.zone (KafkaRow.base r) ∧
        (now ≤ m.createdAt.instant D.zone + dayMicros → (check (now, later)).passed = true) := by
  intro check bronze later
  have hdate : ∀ r ∈ bronze, ∃ m ∈ D.events, D.lane.archived r = m.row D.zone (KafkaRow.base r) ∧
      (D.lane.archived r).createdAt.utcMicros = m.createdAt.instant D.zone := by
    intro r hr
    obtain ⟨-, m, hm, hrow⟩ := (Pipeline.sourced_run D stored as).tables.bronze r hr
    refine ⟨m, hm, hrow, ?_⟩
    rw [hrow, row_createdAt]
    simp [DateTime.utcMicros, DateTime.ofInstant]
  constructor
  · intro hpass
    obtain ⟨r, hr, hle⟩ := Lane.freshness_passed_iff.1 hpass
    obtain ⟨m, hm, -, hmicros⟩ := hdate r hr
    rw [hmicros] at hle
    exact ⟨m, hm, hle⟩
  · intro r hr
    obtain ⟨m, hm, hrow, hmicros⟩ := hdate r hr
    refine ⟨m, hm, hrow, fun hnow => Lane.freshness_passed_iff.2 ⟨r, ?_, ?_⟩⟩
    · have hgrows := (Pipeline.tables_grow D (Trace.run (Pipeline.step D) (.init D stored) as) bs).bronze
      rw [← Trace.run_append] at hgrows
      exact hgrows hr
    · rw [hmicros]
      omega

/-! ## Volume -/

section

variable {rows rows' : List MartRow}

theorem maxDay_perm (h : rows.Perm rows') : maxDay rows = maxDay rows' := by
  have hle : ∀ l l' : List MartRow, l.Perm l' → maxDay l ≤ maxDay l' := by
    intro l l' hl
    have hdays := hl.map MartRow.day
    refine greatest_le_of_forall (fun d hd => ⟨d, hdays.mem_iff.1 hd, le_rfl⟩) fun hnil => ?_
    rw [hnil] at hdays
    exact List.nil_perm.1 hdays
  exact le_antisymm (hle _ _ h) (hle _ _ h.symm)

theorem trailingDays_perm (h : rows.Perm rows') : (trailingDays rows).Perm (trailingDays rows') := by
  unfold trailingDays
  rw [maxDay_perm h]
  exact (h.filter _).map _

/-- **The report is one of the rows**, in whatever order they are read. -/
theorem martVolume_perm (h : rows.Perm rows') : martVolume rows = martVolume rows' := by
  have hlatest : latestRows rows = latestRows rows' := by
    unfold latestRows
    rw [maxDay_perm h]
    exact (h.filter _).length_eq
  have hdays := trailingDays_perm h
  have hcounts : ((trailingDays rows).dedup.map fun day => (trailingDays rows).count day).Perm
      ((trailingDays rows').dedup.map fun day => (trailingDays rows').count day) := by
    have hcount : ∀ day, (trailingDays rows).count day = (trailingDays rows').count day := hdays.count_eq
    simp only [hcount]
    exact hdays.dedup.map _
  have havg : trailingAvg rows = trailingAvg rows' := by
    unfold trailingAvg
    simp only [hcounts.sum_eq, hcounts.length_eq, hcounts.isEmpty_eq]
  unfold martVolume
  rw [havg, hlatest]

theorem trailingAvg_eq : trailingAvg rows = if trailingDays rows = [] then none
    else some (((trailingDays rows).length : ℚ) / (trailingDays rows).dedup.length) := by
  have hsum : ((trailingDays rows).dedup.map fun day => (trailingDays rows).count day).sum =
      (trailingDays rows).length := List.sum_map_count_dedup_eq_length _
  have hempty : ((trailingDays rows).dedup.map fun day => (trailingDays rows).count day).isEmpty = true ↔
      trailingDays rows = [] := by
    rw [List.isEmpty_iff, List.map_eq_nil_iff, List.dedup_eq_nil]
  unfold trailingAvg
  simp only [hsum, hempty, List.length_map]

/-- **The verdict in integers**: the days before the last have at most four times as many rows each,
on average, as the last. -/
theorem volume_passed_iff : (martVolume rows).passed = true ↔
    (trailingDays rows).length ≤ 4 * latestRows rows * (trailingDays rows).dedup.length := by
  unfold martVolume
  rw [trailingAvg_eq]
  by_cases hnil : trailingDays rows = []
  · rw [if_pos hnil, hnil]
    simp
  · have hrows : 0 < (trailingDays rows).length := List.length_pos_of_ne_nil hnil
    have hdays : 0 < (trailingDays rows).dedup.length := by
      refine List.length_pos_of_ne_nil fun h => hnil ?_
      rwa [List.dedup_eq_nil] at h
    have hpos : (0 : ℚ) < (trailingDays rows).length / (trailingDays rows).dedup.length := by positivity
    rw [if_neg hnil, Option.filter_some, if_pos (by simpa using hpos.ne')]
    simp only [decide_eq_true_iff]
    unfold martVolumeMinFraction
    have hcast : (0 : ℚ) < (trailingDays rows).dedup.length := by positivity
    rw [← mul_div_assoc, div_le_iff₀ hcast]
    constructor
    · intro h
      have h4 : ((trailingDays rows).length : ℚ) ≤
          ((4 * latestRows rows * (trailingDays rows).dedup.length : ℕ) : ℚ) := by
        push_cast
        linarith
      exact Nat.cast_le.1 h4
    · intro h
      have h4 : ((trailingDays rows).length : ℚ) ≤
          ((4 * latestRows rows * (trailingDays rows).dedup.length : ℕ) : ℚ) := Nat.cast_le.2 h
      push_cast at h4
      linarith

end

theorem volumeCheck_run (mart : String) (t : List MartRow) : (volumeCheck mart).run t = martVolume (martFinal t) := rfl

/-- **Merges change no report**: in any state of the tables, whatever superseded rows ClickHouse
drops, the volume check and the null-rate check report the same, and the singular tests find
nothing. -/
theorem checks_merged [DecidableEq Row] [DecidableEq Stg] (lst : LandingSettings) (V : Vertical Row Stg) (dates : Dates)
    (w : Warehouse Row Stg) (ms : List (Warehouse.Act Row Stg)) (hms : ∀ a ∈ ms, a.IsMerge) (mart stg : String) :
    let w' := Trace.run (Warehouse.step lst V dates) w ms
    w'.mart.map (volumeCheck mart).run = w.mart.map (volumeCheck mart).run ∧
      w'.staging.map (nullRateCheck stg).run = w.staging.map (nullRateCheck stg).run ∧
      (∀ t ∈ w'.staging, assertStgUnique t = []) ∧ ∀ t ∈ w'.mart, assertMartUnique t = [] := by
  intro w'
  obtain ⟨f, g, hf, hg, hrun⟩ := Warehouse.run_merges lst V dates hms w
  have hw' : w' = { w with staging := w.staging.map f, mart := w.mart.map g } := hrun
  refine ⟨?_, ?_, fun t _ => duplicated_eq_nil_iff.2 nodup_final, fun t _ => duplicated_eq_nil_iff.2 nodup_final⟩
  · rw [hw', Option.map_map]
    refine Option.map_congr fun m _ => ?_
    exact martVolume_perm (hg m).final_perm
  · rw [hw', Option.map_map]
    refine Option.map_congr fun t _ => ?_
    have hperm : (stgFinal (f t)).Perm (stgFinal t) := (hf t).final_perm
    change stgNullRate (stgFinal (f t)) = stgNullRate (stgFinal t)
    unfold stgNullRate
    simp only [hperm.countP_eq]

/-- The older of the two rows of one post is merged away. -/
theorem checks_merged_twice :
    let w' := Trace.run (Warehouse.step rowByRow posts (.integer utcDay)) countedOnce.tables
      [.mergeStaging 1, .mergeMart 0]
    w'.staging.map List.length = some 1 ∧
      w'.mart.map checkMartVolume.run = countedOnce.tables.mart.map checkMartVolume.run ∧
      w'.staging.map checkStgNullRate.run = countedOnce.tables.staging.map checkStgNullRate.run := by
  have hall := checks_merged rowByRow posts (.integer utcDay) countedOnce.tables [.mergeStaging 1, .mergeMart 0]
    (by decide) "mart_posts_by_lang_daily" "stg_posts"
  exact ⟨by decide, hall.1, hall.2.1⟩

/-- **The check counts the groups of the source.** Where a `(did, rkey)` identifies an event: after
any run in which staging and landing runs kept apart, once every accepted event is landed and
staging has run, the check on a mart built anew passes exactly when the days before the last of the
source have at most four times as many groups each, on average, as the last. -/
theorem volume_counts_source [DecidableEq Row] [DecidableEq Stg] (D : Deployment Row Stg Datum) (hid : D.Identified)
    (stored : Option ℤ) (as : List (Pipeline.Act Row Stg))
    (hapart : Trace.Along (Pipeline.step D) Pipeline.Apart (.init D stored) as)
    (hall : (Trace.run (Pipeline.step D) (.init D stored) as).CaughtUp D) (rows : List Stg)
    (hrows : rows.Perm ((Trace.run (Pipeline.step D) (.init D stored) as).tables.toStage D.lane.vertical))
    (hanew : (Trace.run (Pipeline.step D) (.init D stored) as).tables.mart = none) (today : ℕ) (mart : String) :
    let counts := tally D.dates D.zone D.events.dedup
    ∃ t, (Trace.run (Pipeline.step D) (.init D stored)
        (as ++ [.table (.stage rows), .table (.mart today)])).tables.mart = some t ∧
      (volumeCheck mart).run t = martVolume counts ∧
      (((volumeCheck mart).run t).passed = true ↔
        (trailingDays counts).length ≤ 4 * latestRows counts * (trailingDays counts).dedup.length) := by
  intro counts
  set w := (Trace.run (Pipeline.step D) (.init D stored) as).tables
  set t := w.staging.getD [] ++ rows
  set inserted := D.lane.vertical.reaggregated D.dates t none
  have hcounts : inserted.Perm counts := Pipeline.caughtUp_aggregate hid hapart hall hrows
  have hreads : (martFinal inserted).Perm counts := (final_perm_self nodup_aggregate).trans hcounts
  have hrun : (volumeCheck mart).run inserted = martVolume counts := by
    rw [volumeCheck_run]
    exact martVolume_perm hreads
  refine ⟨inserted, ?_, hrun, ?_⟩
  · rw [Trace.run_append]
    simp only [Trace.run_cons, Trace.run_nil, Pipeline.step]
    rw [Warehouse.step_stage hrows, Warehouse.step_mart rfl]
    simp only [hanew]
    rfl
  · rw [hrun]
    exact volume_passed_iff

/-- One group on the day before the last, two on the last: it passes. -/
theorem volume_counts_source_twice :
    ∃ t, (Trace.run (Pipeline.step twoDayDeployment) (.init twoDayDeployment (some 5)) (twoDayRun ++
        [.table (.stage twoDayStage), .table (.mart 19724)])).tables.mart = some t ∧
      checkMartVolume.run t =
        martVolume [⟨19723, "und", 1, 1⟩, ⟨19724, "en", 1, 1⟩, ⟨19724, "de", 1, 1⟩] ∧
      (checkMartVolume.run t).passed = true := by
  obtain ⟨t, ht, hrun, hpassed⟩ := volume_counts_source twoDayDeployment identified_twoDayDeployment (some 5) twoDayRun
    apart_twoDayRun caughtUp_caughtUpTwoDays twoDayStage toStage_twoDayRun (by decide) 19724
    "mart_posts_by_lang_daily"
  exact ⟨t, ht, hrun, hpassed.2 (by decide)⟩

end BlueskyTrends
