import BlueskyTrends.Proof.Window

/-!
# Running the batch layer again

A pass is a completed landing run, a staging run and a mart run, with merges in between. After a pass each of
the three resumes from its own output and finds nothing new: a landing run scans above all it has landed, a
staging run selects above all it has staged, and the window of a mart run starts no earlier than the last
one's, so it inserts the rows that the mart reads as already.

* `run_merges`: merges change no read and no maximum.
* `Pass.nothing_scanned`, `Pass.nothing_selected`, `Pass.mart_read`: each run finds nothing new.
* `pass_again`: a second pass inserts nothing, and every table reads as before.
-/

namespace BlueskyTrends

open HighWater Replacing

/-- Merges keep the greatest value of what only grows with the version of a key. -/
theorem greatest_merged {α κ β γ : Type*} [DecidableEq κ] [LinearOrder β] [LinearOrder γ] {key : α → κ}
    {ver : α → β} {f : α → γ} (hf : ∀ x y, key y = key x → ver x ≤ ver y → f x ≤ f y) {l l' : List α}
    (h : Merged key ver l l') (d : γ) : greatest d (l'.map f) = greatest d (l.map f) := by
  apply le_antisymm
  · refine greatest_le_of_forall ?_ ?_
    · intro b hb
      obtain ⟨x, hx, rfl⟩ := List.mem_map.1 hb
      exact ⟨f x, List.mem_map.2 ⟨x, h.subset hx, rfl⟩, le_rfl⟩
    · intro hnil
      rw [List.map_eq_nil_iff] at hnil ⊢
      refine List.eq_nil_iff_forall_not_mem.2 fun x hx => ?_
      obtain ⟨y, hy, -⟩ := h.kept x hx
      rw [hnil] at hy
      cases hy
  · refine greatest_le_of_forall ?_ ?_
    · intro b hb
      obtain ⟨x, hx, rfl⟩ := List.mem_map.1 hb
      obtain ⟨y, hy, hk, hle⟩ := h.kept x hx
      exact ⟨f y, List.mem_map.2 ⟨y, hy, rfl⟩, hf x y hk hle⟩
    · intro hnil
      rw [List.map_eq_nil_iff] at hnil ⊢
      rw [hnil] at h
      exact List.subset_nil.1 h.subset

variable {Row Stg : Type} [StgRow Stg]

theorem maxStgTs_merged {t t' : List Stg} (h : Merged stgKey stgTs t t') : maxStgTs t' = maxStgTs t :=
  greatest_merged (fun _ _ _ hle => hle) h 0

theorem maxDay_merged {m m' : List MartRow} (h : Merged MartRow.key (fun _ => ()) m m') :
    maxDay m' = maxDay m :=
  greatest_merged (fun _ _ hk _ => (congrArg Prod.fst hk).ge) h 0

/-! ## What a run leaves -/

section

variable [KafkaRow Row] {V : Vertical Row Stg} {dates : Dates} {w : Warehouse Row Stg} {toDate : ℤ → ℕ}
  {t t' : List Stg} {m m' : List MartRow} {mart : Option (List MartRow)} {y : MartRow}

theorem mem_reaggregated_merged (ht : Merged stgKey stgTs t t') (hm : Merged MartRow.key (fun _ => ()) m m') :
    y ∈ V.reaggregated dates t' (some m') ↔ y ∈ V.reaggregated dates t (some m) := by
  have hagg : y ∈ aggregate dates V.groups (stgFinal t') ↔ y ∈ aggregate dates V.groups (stgFinal t) :=
    mem_aggregate_perm ht.final_perm
  have hbound : lowerBound dates m' = lowerBound dates m := by simp only [lowerBound, maxDay_merged hm]
  rw [mem_reaggregated, mem_reaggregated, hagg, hbound]

/-- **Nothing is above what a staging run has staged.** -/
theorem nothing_selected {rows : List Stg} (hrows : rows.Perm (w.toStage V)) :
    ∀ r ∈ w.store.landing, stgTs (V.select r) ≤ maxStgTs (w.staging.getD [] ++ rows) := by
  intro r hr
  have hselect : V.select r ∈ w.store.landing.map V.select := List.mem_map.2 ⟨r, hr, rfl⟩
  unfold maxStgTs
  rw [List.map_append]
  cases ht : w.staging with
  | none =>
    rw [Warehouse.toStage, ht] at hrows
    exact le_greatest (List.mem_append_right _ (List.mem_map.2 ⟨_, hrows.mem_iff.2 hselect, rfl⟩))
  | some t =>
    rw [Warehouse.toStage, ht] at hrows
    refine le_greatest_append ?_ ?_
    · intro c hc
      obtain ⟨s, hs, rfl⟩ := List.mem_map.1 hc
      exact of_decide_eq_true (List.mem_filter.1 (hrows.mem_iff.1 hs)).2
    · intro hlt
      have hmem : V.select r ∈ rows :=
        hrows.mem_iff.2 (List.mem_filter.2 ⟨hselect, decide_eq_true hlt⟩)
      exact List.mem_map.2 ⟨_, hmem, rfl⟩

/-- The window of a mart starts no earlier after rows are inserted. -/
theorem lowerBound_mono (m l : List MartRow) :
    lowerBound (.integer toDate) m ≤ lowerBound (.integer toDate) (m ++ l) := by
  have hmax : maxDay m ≤ maxDay (m ++ l) := by
    rw [maxDay_le_iff]
    intro y hy
    exact maxDay_le_iff.1 le_rfl y (List.mem_append_left _ hy)
  have h : ∀ m, lowerBound (.integer toDate) m = (maxDay m : ℤ) - 2 := fun _ => rfl
  rw [h, h]
  omega

/-- **After a mart run, the mart reads as the groups of its window**, also of the window it has now. -/
theorem mart_read (ht : Merged stgKey stgTs t t')
    (hm : Merged MartRow.key (fun _ => ()) (mart.getD [] ++ V.reaggregated (.integer toDate) t mart) m) :
    ∀ y ∈ V.reaggregated (.integer toDate) t' (some m), y ∈ martFinal m := by
  intro y hy
  obtain ⟨hagg, hday⟩ := mem_reaggregated.1 ((mem_reaggregated_merged ht hm).1 hy)
  have hins : y ∈ V.reaggregated (.integer toDate) t mart := by
    cases mart with
    | none => exact hagg
    | some m₀ => exact mem_reaggregated.2 ⟨hagg, (lowerBound_mono m₀ _).trans hday⟩
  exact hm.final_perm.mem_iff.2 (mem_martFinal_append.2 (Or.inl hins))

/-- Rows that a mart reads as already change no read. -/
theorem martFinal_append_perm (h : ∀ y ∈ V.reaggregated dates t mart, y ∈ martFinal m) :
    (martFinal (m ++ V.reaggregated dates t mart)).Perm (martFinal m) := by
  refine (List.perm_ext_iff_of_nodup nodup_final.of_map nodup_final.of_map).2 fun y => ?_
  rw [← martFinal, ← martFinal, mem_martFinal_append]
  constructor
  · rintro (hy | ⟨hy, -⟩)
    · exact h y hy
    · exact hy
  · intro hy
    by_cases hk : y.key ∈ (V.reaggregated dates t mart).map MartRow.key
    · -- the row inserted for its key is what the mart read, and it read one
      obtain ⟨z, hz, hzk⟩ := List.mem_map.1 hk
      have hzy : z = y := List.inj_on_of_nodup_map nodup_final (h z hz) hy hzk
      exact Or.inl (hzy ▸ hz)
    · exact Or.inr ⟨hy, hk⟩

end

variable [KafkaRow Row] [DecidableEq Row] [DecidableEq Stg] {lst : LandingSettings} {V : Vertical Row Stg}
  {dates : Dates} {w : Warehouse Row Stg}

namespace Warehouse

/-! ## Merges -/

def Act.IsMerge : Act Row Stg → Prop
  | .mergeStaging _ | .mergeMart _ => True
  | _ => False

instance : ∀ a : Act Row Stg, Decidable a.IsMerge
  | .mergeStaging _ | .mergeMart _ => isTrue trivial
  | .store _ | .stage _ | .mart _ => isFalse id

variable (lst V dates) in
/-- **Merges** drop superseded rows of the staging table and of the mart. -/
theorem run_merges {ms : List (Act Row Stg)} (h : ∀ a ∈ ms, a.IsMerge) (w : Warehouse Row Stg) : ∃ f g,
    (∀ t, Merged stgKey stgTs t (f t)) ∧ (∀ m, Merged MartRow.key (fun _ => ()) m (g m)) ∧
      Trace.run (step lst V dates) w ms = { w with staging := w.staging.map f, mart := w.mart.map g } := by
  induction ms generalizing w with
  | nil => exact ⟨id, id, Merged.refl, Merged.refl, by simp⟩
  | cons a ms ih =>
    obtain ⟨f, g, hf, hg, hrun⟩ := ih (fun b hb => h b (List.mem_cons_of_mem _ hb)) (w.step lst V dates a)
    rw [Trace.run_cons, hrun]
    have ha := h a List.mem_cons_self
    cases a with
    | store | stage | mart => exact absurd ha id
    | mergeStaging i =>
      refine ⟨fun t => f (collapse stgKey stgTs t i), g, ?_, hg, ?_⟩
      · intro t
        exact (merged_collapse t i).trans (hf _)
      · simp [step, Function.comp_def]
    | mergeMart i =>
      refine ⟨f, fun m => g (collapse MartRow.key (fun _ => ()) m i), hf, ?_, ?_⟩
      · intro m
        exact (merged_collapse m i).trans (hg _)
      · simp [step, Function.comp_def]

/-! ## A landing run -/

/-- The steps of a landing run that inserts the rows `arrow` and completes. -/
def landingRun (lst : LandingSettings) (w : Warehouse Row Stg) (arrow : List Row) : List (Act Row Stg) :=
  let i := w.store.jobs.length
  let acts : List (LandAct Row) :=
    .begin arrow :: (List.replicate (blocksOf lst arrow).length (.insert i) ++ [.finish i])
  acts.map fun a => .store (.land a)

theorem run_store (as : List (LandAct Row)) (w : Warehouse Row Stg) :
    Trace.run (step lst V dates) w (as.map fun a => .store (.land a)) =
      { w with store := Trace.run (Store.land lst) w.store as } := by
  induction as generalizing w with
  | nil => rfl
  | cons a as ih =>
    rw [List.map_cons, Trace.run_cons, ih]
    rfl

/-- **A completed landing run** inserts what it has scanned. -/
theorem run_landingRun {arrow : List Row}
    (h : arrow.Perm (scanned w.store.bronze (watermark w.store.landing))) :
    Trace.run (step lst V dates) w (landingRun lst w arrow) =
      { w with store := { w.store with landing := w.store.landing ++ arrow } } := by
  obtain ⟨⟨bronze, landing, jobs⟩, staging, mart, read⟩ := w
  have hbegin : Store.land lst ⟨bronze, landing, jobs⟩ (.begin arrow) =
      ⟨bronze, landing, jobs ++ ⟨bronze, blocksOf lst arrow⟩ :: []⟩ := if_pos h
  have hinserts : Trace.run (Store.land lst) ⟨bronze, landing, jobs ++ ⟨bronze, blocksOf lst arrow⟩ :: []⟩
      (List.replicate (blocksOf lst arrow).length (.insert jobs.length)) =
      ⟨bronze, landing ++ (blocksOf lst arrow).flatten, jobs ++ ⟨bronze, []⟩ :: []⟩ :=
    Store.run_inserts jobs [] bronze (blocksOf lst arrow) bronze landing
  have hfinish : Store.land lst ⟨bronze, landing ++ arrow, jobs ++ ⟨bronze, []⟩ :: []⟩
      (.finish jobs.length) = ⟨bronze, landing ++ arrow, jobs ++ []⟩ := Store.land_finish rfl
  rw [blocksOf_flatten] at hinserts
  rw [landingRun, run_store, Trace.run_cons, Trace.run_append, hbegin, hinserts,
    Trace.run_cons, hfinish, List.append_nil]
  rfl

/-! ## A pass -/

/-- A landing run that inserts the rows `arrow`, a staging run that inserts the rows `rows` and a mart run, one
after the other from the state `w`; merges after each. -/
structure Pass (lst : LandingSettings) (V : Vertical Row Stg) (dates : Dates) (w : Warehouse Row Stg) where
  arrow : List Row
  rows : List Stg
  today : ℕ
  ms₁ : List (Act Row Stg)
  ms₂ : List (Act Row Stg)
  ms₃ : List (Act Row Stg)
  merges : ∀ a ∈ ms₁ ++ ms₂ ++ ms₃, a.IsMerge
  scan : arrow.Perm (scanned w.store.bronze (watermark w.store.landing))
  selects : rows.Perm
    ((Trace.run (step lst V dates) w (landingRun lst w arrow ++ ms₁)).toStage V)

namespace Pass

/-- The pass without merges, the rows in table order. -/
def plain (lst : LandingSettings) (V : Vertical Row Stg) (dates : Dates) (w : Warehouse Row Stg)
    (today : ℕ) : Pass lst V dates w where
  arrow := scanned w.store.bronze (watermark w.store.landing)
  rows := (Trace.run (step lst V dates) w
    (landingRun lst w (scanned w.store.bronze (watermark w.store.landing)) ++ [])).toStage V
  today := today
  ms₁ := []
  ms₂ := []
  ms₃ := []
  merges := by simp
  scan := List.Perm.refl _
  selects := List.Perm.refl _

/-- After the landing run. -/
def landed (p : Pass lst V dates w) : Warehouse Row Stg :=
  Trace.run (step lst V dates) w (landingRun lst w p.arrow ++ p.ms₁)

/-- After the staging run. -/
def staged (p : Pass lst V dates w) : Warehouse Row Stg :=
  Trace.run (step lst V dates) p.landed (.stage p.rows :: p.ms₂)

/-- After the mart run. -/
def after (p : Pass lst V dates w) : Warehouse Row Stg :=
  Trace.run (step lst V dates) p.staged (.mart p.today :: p.ms₃)

theorem merges₁ (p : Pass lst V dates w) : ∀ a ∈ p.ms₁, a.IsMerge := by
  intro a ha
  exact p.merges a (by simp [ha])

theorem merges₂ (p : Pass lst V dates w) : ∀ a ∈ p.ms₂, a.IsMerge := by
  intro a ha
  exact p.merges a (by simp [ha])

theorem merges₃ (p : Pass lst V dates w) : ∀ a ∈ p.ms₃, a.IsMerge := by
  intro a ha
  exact p.merges a (by simp [ha])

/-- The landing run inserts what it has scanned. -/
theorem landed_spec (p : Pass lst V dates w) : ∃ f g,
    (∀ t, Merged stgKey stgTs t (f t)) ∧ (∀ m, Merged MartRow.key (fun _ => ()) m (g m)) ∧
      p.landed = { w with
        store := { w.store with landing := w.store.landing ++ p.arrow }
        staging := w.staging.map f
        mart := w.mart.map g } := by
  obtain ⟨f, g, hf, hg, hrun⟩ := run_merges lst V dates p.merges₁
    { w with store := { w.store with landing := w.store.landing ++ p.arrow } }
  refine ⟨f, g, hf, hg, ?_⟩
  rw [landed, Trace.run_append, run_landingRun p.scan, hrun]

/-- The staging run inserts what it has selected. -/
theorem staged_spec (p : Pass lst V dates w) : ∃ t g,
    Merged stgKey stgTs (p.landed.staging.getD [] ++ p.rows) t ∧
      (∀ m, Merged MartRow.key (fun _ => ()) m (g m)) ∧
      p.staged = { p.landed with staging := some t, mart := p.landed.mart.map g } := by
  obtain ⟨f, g, hf, hg, hrun⟩ := run_merges lst V dates p.merges₂
    { p.landed with staging := some (p.landed.staging.getD [] ++ p.rows) }
  refine ⟨f (p.landed.staging.getD [] ++ p.rows), g, hf _, hg, ?_⟩
  have hselects : p.rows.Perm (p.landed.toStage V) := p.selects
  rw [staged, Trace.run_cons, step_stage hselects, hrun]
  rfl

/-- The mart run inserts the groups of its window. -/
theorem after_spec (p : Pass lst V dates w) {t : List Stg} (ht : p.staged.staging = some t) : ∃ t' m,
    Merged stgKey stgTs t t' ∧
      Merged MartRow.key (fun _ => ()) (p.staged.mart.getD [] ++ V.reaggregated dates t p.staged.mart) m ∧
      p.after.store = p.staged.store ∧ p.after.staging = some t' ∧ p.after.mart = some m := by
  obtain ⟨f, g, hf, hg, hrun⟩ := run_merges lst V dates p.merges₃
    (p.staged.step lst V dates (.mart p.today))
  refine ⟨f t, _, hf t, hg _, ?_⟩
  rw [after, Trace.run_cons, hrun, step_mart ht]
  exact ⟨rfl, by rw [ht]; rfl, rfl⟩

end Pass

/-! ## After a pass -/

/-- Nothing is left for the three runs: no bronze row is above all that is landed, no landed row above all
that is staged, and the mart reads as the groups of its window. -/
structure Settled (V : Vertical Row Stg) (dates : Dates) (w : Warehouse Row Stg) (t : List Stg)
    (m : List MartRow) : Prop where
  staging : w.staging = some t
  mart : w.mart = some m
  landed : ∀ r, r ∉ newer ingestTs {r | r ∈ w.store.bronze} {r | r ∈ w.store.landing}
  staged : ∀ r ∈ w.store.landing, stgTs (V.select r) ≤ maxStgTs t
  read : ∀ y ∈ V.reaggregated dates t (some m), y ∈ martFinal m

/-- **Nothing is above what a landing run has landed.** -/
theorem Pass.nothing_scanned (p : Pass lst V dates w) (r : Row) :
    r ∉ newer ingestTs {r | r ∈ w.store.bronze} {r | r ∈ w.store.landing ++ p.arrow} := by
  rintro ⟨hr, habove⟩
  -- a row above all that is landed now was scanned
  have hold : Above ingestTs {r | r ∈ w.store.landing} r := by
    intro r' hr'
    exact habove r' (List.mem_append_left _ hr')
  have harrow : r ∈ p.arrow := p.scan.mem_iff.2 (mem_scanned.2 ⟨hr, hold⟩)
  exact lt_irrefl _ (habove r (List.mem_append_right _ harrow))

theorem Pass.settled {toDate : ℤ → ℕ} (p : Pass lst V (.integer toDate) w) :
    ∃ t m, p.after.Settled V (.integer toDate) t m := by
  obtain ⟨f, g, -, -, hlanded⟩ := p.landed_spec
  obtain ⟨t, g', ht, -, hstaged⟩ := p.staged_spec
  have hstaging : p.staged.staging = some t := by rw [hstaged]
  obtain ⟨t', m, ht', hm, hstore, hts, hms⟩ := p.after_spec hstaging
  have hbronze : p.after.store = { w.store with landing := w.store.landing ++ p.arrow } := by
    rw [hstore, hstaged, hlanded]
  have hlanding : p.after.store.landing = p.landed.store.landing := by rw [hstore, hstaged]
  refine ⟨t', m, hts, hms, ?_, ?_, mart_read ht' hm⟩
  · rw [hbronze]
    exact p.nothing_scanned
  · rw [hlanding, maxStgTs_merged ht', maxStgTs_merged ht]
    exact nothing_selected p.selects

/-- **From a settled state a pass inserts nothing**, and every table reads as before. -/
theorem Settled.pass {toDate : ℤ → ℕ} {t : List Stg} {m : List MartRow}
    (h : w.Settled V (.integer toDate) t m) (p : Pass lst V (.integer toDate) w) :
    p.arrow = [] ∧ p.rows = [] ∧ p.after.store.landing = w.store.landing ∧
      ∃ t' m', p.after.staging = some t' ∧ p.after.mart = some m' ∧
        (stgFinal t').Perm (stgFinal t) ∧ (martFinal m').Perm (martFinal m) := by
  have harrow : p.arrow = [] := by
    refine List.eq_nil_iff_forall_not_mem.2 fun r hr => ?_
    exact h.landed r (mem_scanned.1 (p.scan.mem_iff.1 hr))
  obtain ⟨f, g, hf, hg, hlanded⟩ := p.landed_spec
  have hls : p.landed.staging = some (f t) := by rw [hlanded, h.staging]; rfl
  have hlm : p.landed.mart = some (g m) := by rw [hlanded, h.mart]; rfl
  have hll : p.landed.store.landing = w.store.landing := by rw [hlanded, harrow]; simp
  have hrows : p.rows = [] := by
    refine List.eq_nil_iff_forall_not_mem.2 fun s hs => ?_
    have hselects : p.rows.Perm (p.landed.toStage V) := p.selects
    rw [toStage, hls, hll] at hselects
    obtain ⟨hmem, hlt⟩ := List.mem_filter.1 (hselects.mem_iff.1 hs)
    obtain ⟨r, hr, rfl⟩ := List.mem_map.1 hmem
    have hle := h.staged r hr
    rw [← maxStgTs_merged (hf t)] at hle
    exact absurd (of_decide_eq_true hlt) (not_lt.2 hle)
  obtain ⟨t₁, g', ht₁, hg', hstaged⟩ := p.staged_spec
  rw [hls, hrows, Option.getD_some, List.append_nil] at ht₁
  have hss : p.staged.staging = some t₁ := by rw [hstaged]
  have hsm : p.staged.mart = some (g' (g m)) := by rw [hstaged, hlm]; rfl
  have hst : Merged stgKey stgTs t t₁ := (hf t).trans ht₁
  have hmm : Merged MartRow.key (fun _ => ()) m (g' (g m)) := (hg m).trans (hg' _)
  obtain ⟨t', m', ht', hm', hstore, hts, hms⟩ := p.after_spec hss
  rw [hsm, Option.getD_some] at hm'
  refine ⟨harrow, hrows, ?_, t', m', hts, hms, (hst.trans ht').final_perm, ?_⟩
  · rw [hstore, hstaged, hll]
  · -- the window is the same, and what it aggregates is read already
    have hread : ∀ y ∈ V.reaggregated (.integer toDate) t₁ (some (g' (g m))),
        y ∈ martFinal (g' (g m)) := by
      intro y hy
      exact hmm.final_perm.mem_iff.2 (h.read y ((mem_reaggregated_merged hst hmm).1 hy))
    exact (hm'.final_perm.trans (martFinal_append_perm hread)).trans hmm.final_perm

end Warehouse

/-- **Idempotence.** After any history of the tables and a pass, a second pass inserts no row into the landing
table, none into staging, and leaves staging and the mart, read with `FINAL`, as they were. -/
theorem pass_again (lst : LandingSettings) (V : Vertical Row Stg) (toDate : ℤ → ℕ) (bronze : List Row)
    (as : List (Warehouse.Act Row Stg))
    (p : Warehouse.Pass lst V (.integer toDate)
      (Trace.run (Warehouse.step lst V (.integer toDate)) (.init bronze) as))
    (p' : Warehouse.Pass lst V (.integer toDate) p.after) :
    p'.arrow = [] ∧ p'.rows = [] ∧ p'.after.store.landing = p.after.store.landing ∧
      ∃ t m t' m', p.after.staging = some t ∧ p.after.mart = some m ∧
        p'.after.staging = some t' ∧ p'.after.mart = some m' ∧
        (stgFinal t').Perm (stgFinal t) ∧ (martFinal m').Perm (martFinal m) := by
  obtain ⟨t, m, h⟩ := p.settled
  obtain ⟨harrow, hrows, hlanding, t', m', ht', hm', hstg, hmart⟩ := h.pass p'
  exact ⟨harrow, hrows, hlanding, t, m, t', m', h.staging, h.mart, ht', hm', hstg, hmart⟩

/-- The state after the posts of `landedOutOfOrder`, the first of them never landed. -/
def cutOff : Warehouse BronzeRow StgPost :=
  Trace.run (Warehouse.step rowByRow posts (.integer utcDay)) (.init twoRows) landedOutOfOrder

theorem pass_again_cut_off :
    let p := Warehouse.Pass.plain rowByRow posts (.integer utcDay) cutOff 0
    let p' := Warehouse.Pass.plain rowByRow posts (.integer utcDay) p.after 0
    p.after.mart = some [⟨0, "und", 1, 1⟩] ∧ p'.arrow = [] ∧ p'.rows = [] := by
  intro p p'
  obtain ⟨harrow, hrows, -⟩ := pass_again rowByRow posts utcDay twoRows landedOutOfOrder p p'
  exact ⟨by decide, harrow, hrows⟩

end BlueskyTrends
