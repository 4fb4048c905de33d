import BlueskyTrends.Dbt.Warehouse

/-!
# Staging is the newest-wins dedupe of landing

The staging filter compares with the greatest `ingest_ts` staged. It leaves nothing out as long as every
landed row not yet staged is above all of staging, which the landing filter provides: a landing run scans
above all that is landed, and all that is staged is.

* `staged_step`: what is staged and what is landed keep to this, whatever landing runs do.
* `staging_newest_wins`: after a staging run, staging is the dedupe.
-/

namespace BlueskyTrends

open HighWater Replacing

variable {Row Stg : Type} [KafkaRow Row] [StgRow Stg]

namespace Store

variable {st : LandingSettings} {s s' : Store Row} {a : StoreAct Row}

/-- The landing table grows by rows that were about to be landed. -/
theorem landing_move (hm : Move st s a s') : s.landing ⊆ s'.landing ∧ s'.landing ⊆ s.copied := by
  have hsub : s.landing ⊆ s.copied := List.subset_append_left _ _
  cases hm with
  | stay | append | begin | finish | die => exact ⟨List.Subset.refl _, hsub⟩
  | insert i l l' snapshot block blocks hj =>
    refine ⟨List.subset_append_left _ _, List.append_subset.2 ⟨hsub, ?_⟩⟩
    intro r hr
    refine List.mem_append_right _ ?_
    simp [pending, hj, hr]

/-- The rows about to be landed were so before, or are above all that is landed. -/
theorem pending_move (hm : Move st s a s') {r : Row} (hr : r ∈ s'.pending) :
    r ∈ s.pending ∨ r ∈ newer ingestTs {r | r ∈ s.bronze} {r | r ∈ s.landing} := by
  cases hm with
  | stay | append => exact Or.inl hr
  | begin arrow blocks hp hb =>
    have hcases : r ∈ s.pending ∨ r ∈ arrow := by simpa [pending, hb] using hr
    exact hcases.imp_right fun harrow => mem_scanned.1 (hp.mem_iff.1 harrow)
  | insert i l l' snapshot block blocks hj =>
    refine Or.inl ?_
    simp only [pending, hj, List.flatMap_append, List.flatMap_cons, List.flatten_cons,
      List.mem_append] at hr ⊢
    tauto
  | finish i l l' snapshot hj =>
    refine Or.inl ?_
    simpa [pending, hj] using hr
  | die i l l' j hj hi =>
    refine Or.inl ?_
    simp only [pending, hj, List.flatMap_append, List.flatMap_cons, List.mem_append] at hr ⊢
    tauto

end Store

/-- Staging holds a row of the key of `r` that is as new. -/
def Kept (V : Vertical Row Stg) (staging : List Stg) (r : Row) : Prop :=
  ∃ s ∈ staging, stgKey s = stgKey (V.select r) ∧ ingestTs r ≤ stgTs s

/-- Staging is the dedupe of landing that keeps the newest row of each key, with its columns. -/
structure NewestWins (V : Vertical Row Stg) (landing : List Row) (final : List Stg) : Prop where
  once : (final.map stgKey).Nodup
  keys : ∀ k, k ∈ final.map stgKey ↔ ∃ r ∈ landing, V.key r = k
  newest : ∀ s ∈ final, ∃ r ∈ landing, V.select r = s ∧ V.Copies s r ∧ stgKey s = V.key r ∧
    ∀ r' ∈ landing, V.key r' = V.key r → ingestTs r' ≤ ingestTs r

namespace Warehouse

variable {lst : LandingSettings} {V : Vertical Row Stg} {dates : Dates} {w : Warehouse Row Stg}

/-- No staging run while a landing run is in progress; bronze rows are stamped after the epoch. -/
def Apart (w : Warehouse Row Stg) : Act Row Stg → Prop
  | .store (.append rows) => ∀ r ∈ rows, 0 < ingestTs r
  | .stage _ => w.store.jobs = []
  | _ => True

instance (w : Warehouse Row Stg) : ∀ a, Decidable (w.Apart a)
  | .store (.append rows) => inferInstanceAs (Decidable (∀ r ∈ rows, 0 < ingestTs r))
  | .stage _ => decidable_of_iff (w.store.jobs.isEmpty = true) List.isEmpty_iff
  | .store (.land _) | .store (.die _) | .mart _ | .mergeStaging _ | .mergeMart _ => isTrue trivial

/-- What holds as long as staging runs and landing runs keep apart: a landed row is kept in staging or above
all of it, and a row about to be landed is above all of it. -/
structure Staged (V : Vertical Row Stg) (w : Warehouse Row Stg) : Prop where
  positive : ∀ r ∈ w.store.bronze ++ w.store.copied, 0 < ingestTs r
  source : ∀ t ∈ w.staging, ∀ s ∈ t, ∃ r ∈ w.store.landing, V.select r = s
  landed : ∀ t ∈ w.staging, ∀ r ∈ w.store.landing, Kept V t r ∨ Above stgTs {s | s ∈ t} (V.select r)
  pending : ∀ t ∈ w.staging, ∀ r ∈ w.store.pending, Above stgTs {s | s ∈ t} (V.select r)

theorem staged_init {bronze : List Row} (hpos : ∀ r ∈ bronze, 0 < ingestTs r) :
    (init bronze : Warehouse Row Stg).Staged V := by
  refine ⟨?_, ?_, ?_, ?_⟩
  · intro r hr
    exact hpos r (by simpa [init, Store.init, Store.copied, Store.pending] using hr)
  all_goals
    intro t ht
    cases ht

/-- **Bronze appends and landing runs.** -/
theorem Staged.move (h : w.Staged V) {a : StoreAct Row} (hok : w.Apart (.store a)) {s' : Store Row}
    (hm : Store.Move lst w.store a s') : Staged V { w with store := s' } := by
  have hpositive : ∀ r ∈ s'.bronze, 0 < ingestTs r := by
    intro r hr
    have hold : ∀ r ∈ w.store.bronze, 0 < ingestTs r := fun r hr =>
      h.positive r (List.mem_append_left _ hr)
    cases hm with
    | append rows => exact (List.mem_append.1 hr).elim (hold r) (hok r)
    | stay | begin | insert | finish | die => exact hold r hr
  have hlanding := Store.landing_move hm
  refine ⟨?_, ?_, ?_, ?_⟩
  · intro r hr
    rcases List.mem_append.1 hr with hr | hr
    · exact hpositive r hr
    · rcases List.mem_append.1 hr with hr | hr
      · exact h.positive r (List.mem_append_right _ (hlanding.2 hr))
      · rcases Store.pending_move hm hr with hr | hr
        · exact h.positive r (List.mem_append_right _ (List.mem_append_right _ hr))
        · exact h.positive r (List.mem_append_left _ hr.1)
  · intro t ht s hs
    obtain ⟨r, hr, hsel⟩ := h.source t ht s hs
    exact ⟨r, hlanding.1 hr, hsel⟩
  · intro t ht r hr
    rcases List.mem_append.1 (hlanding.2 hr) with hr | hr
    · exact h.landed t ht r hr
    · exact Or.inr (h.pending t ht r hr)
  · intro t ht r hr
    rcases Store.pending_move hm hr with hr | hr
    · exact h.pending t ht r hr
    · -- scanned above all that is landed, hence above all that is staged
      intro s hs
      obtain ⟨r', hr', rfl⟩ := h.source t ht s hs
      rw [V.stamp, V.stamp]
      exact hr.2 r' hr'

/-- The staging table after a run: what was staged, and what it selects. -/
theorem Staged.kept_stage (h : w.Staged V) {rows : List Stg} (hrows : rows.Perm (w.toStage V)) :
    ∀ r ∈ w.store.landing, Kept V (w.staging.getD [] ++ rows) r := by
  intro r hr
  have hself : V.select r ∈ rows → Kept V (w.staging.getD [] ++ rows) r := by
    intro hmem
    exact ⟨V.select r, List.mem_append_right _ hmem, rfl, (V.stamp r).ge⟩
  have hselect : V.select r ∈ w.store.landing.map V.select := List.mem_map.2 ⟨r, hr, rfl⟩
  cases ht : w.staging with
  | none =>
    rw [toStage, ht] at hrows
    rw [← ht]
    exact hself (hrows.mem_iff.2 hselect)
  | some t =>
    rw [toStage, ht] at hrows
    rcases h.landed t ht r hr with ⟨s, hs, hk, hle⟩ | habove
    · exact ⟨s, List.mem_append_left _ hs, hk, hle⟩
    · rw [← ht]
      refine hself (hrows.mem_iff.2 (List.mem_filter.2 ⟨hselect, decide_eq_true ?_⟩))
      have hpos : 0 < ingestTs r :=
        h.positive r (List.mem_append_right _ (List.mem_append_left _ hr))
      by_cases hnil : t = []
      · -- over an empty table the maximum is the epoch
        subst hnil
        rw [V.stamp]
        exact hpos
      · have hne : t.map stgTs ≠ [] := by simpa using hnil
        obtain ⟨s, hs, hmax⟩ := List.mem_map.1 (greatest_mem (d := 0) hne)
        rw [maxStgTs, ← hmax]
        exact habove s hs

theorem Staged.source_stage (h : w.Staged V) {rows : List Stg} (hrows : rows.Perm (w.toStage V)) :
    ∀ s ∈ w.staging.getD [] ++ rows, ∃ r ∈ w.store.landing, V.select r = s := by
  intro s hs
  rcases List.mem_append.1 hs with hs | hs
  · cases ht : w.staging with
    | none =>
      rw [ht] at hs
      cases hs
    | some t =>
      rw [ht] at hs
      exact h.source t ht s hs
  · have hmem : s ∈ w.store.landing.map V.select := by
      have hsel := hrows.mem_iff.1 hs
      rw [toStage] at hsel
      cases ht : w.staging with
      | none =>
        rw [ht] at hsel
        exact hsel
      | some t =>
        rw [ht] at hsel
        exact List.mem_of_mem_filter hsel
    exact List.mem_map.1 hmem

/-- A staging run leaves the dedupe. -/
theorem Staged.newestWins (h : w.Staged V) {rows : List Stg} (hrows : rows.Perm (w.toStage V)) :
    NewestWins V w.store.landing (stgFinal (w.staging.getD [] ++ rows)) := by
  have hkept := h.kept_stage hrows
  have hsource := h.source_stage hrows
  refine ⟨nodup_final, ?_, ?_⟩
  · intro k
    rw [stgFinal, mem_map_final, List.mem_map]
    constructor
    · rintro ⟨s, hs, rfl⟩
      obtain ⟨r, hr, rfl⟩ := hsource s hs
      exact ⟨r, hr, (V.keyed r).symm⟩
    · rintro ⟨r, hr, rfl⟩
      obtain ⟨s, hs, hk, -⟩ := hkept r hr
      exact ⟨s, hs, hk.trans (V.keyed r)⟩
  · intro s hs
    obtain ⟨r, hr, rfl⟩ := hsource s (final_subset hs)
    refine ⟨r, hr, rfl, V.copies r, V.keyed r, ?_⟩
    intro r' hr' hk
    obtain ⟨s', hs', hk', hle⟩ := hkept r' hr'
    have hsame : stgKey (V.select r') = stgKey (V.select r) := by rw [V.keyed, V.keyed, hk]
    have hgreatest := final_greatest hs hs' (hk'.trans hsame)
    rw [V.stamp] at hgreatest
    exact hle.trans hgreatest

variable [DecidableEq Row] [DecidableEq Stg]

/-- **Staging runs.** -/
theorem Staged.stage (h : w.Staged V) {rows : List Stg} (hok : w.Apart (.stage rows)) :
    (w.step lst V dates (.stage rows)).Staged V := by
  by_cases hrows : rows.Perm (w.toStage V)
  · rw [step_stage hrows]
    refine ⟨h.positive, ?_, ?_, ?_⟩
    · rintro t ⟨⟩
      exact h.source_stage hrows
    · rintro t ⟨⟩ r hr
      exact Or.inl (h.kept_stage hrows r hr)
    · rintro t ⟨⟩ r hr
      have hnone : w.store.pending = [] := Store.pending_eq_nil hok
      simp [hnone] at hr
  · rw [step, if_neg hrows]
    exact h

/-- **Background merges** of staging. -/
theorem Staged.merge (h : w.Staged V) (i : ℕ) : (w.step lst V dates (.mergeStaging i)).Staged V := by
  refine ⟨h.positive, ?_, ?_, ?_⟩
  · intro t ht s hs
    obtain ⟨u, hu, rfl⟩ := Option.map_eq_some_iff.1 ht
    exact h.source u hu s (collapse_sublist.subset hs)
  · intro t ht r hr
    obtain ⟨u, hu, rfl⟩ := Option.map_eq_some_iff.1 ht
    rcases h.landed u hu r hr with ⟨s, hs, hk, hle⟩ | habove
    · obtain ⟨s', hs', hk', hle'⟩ := exists_collapse stgKey stgTs i hs
      exact Or.inl ⟨s', hs', hk'.trans hk, hle.trans hle'⟩
    · exact Or.inr (habove.mono collapse_sublist.subset)
  · intro t ht r hr
    obtain ⟨u, hu, rfl⟩ := Option.map_eq_some_iff.1 ht
    exact (h.pending u hu r hr).mono collapse_sublist.subset

theorem staged_step {a : Act Row Stg} (hok : w.Apart a) (h : w.Staged V) :
    (w.step lst V dates a).Staged V := by
  cases a with
  | store a => exact h.move hok (Store.move_step lst w.store a)
  | stage rows => exact h.stage hok
  | mart today =>
    refine ⟨?_, ?_, ?_, ?_⟩
    · simpa using h.positive
    · simpa using h.source
    · simpa using h.landed
    · simpa using h.pending
  | mergeStaging i => exact h.merge i
  | mergeMart i => exact ⟨h.positive, h.source, h.landed, h.pending⟩

end Warehouse

/-- **Newest wins.** Whatever is appended to bronze and however landing runs and earlier staging runs went,
complete or cut off after any block: after a staging run, staging read with `FINAL` holds one row for each
`(did, rkey)` landed and no other, with the columns of a landed row of greatest `ingest_ts` of its key. -/
theorem staging_newest_wins [DecidableEq Row] [DecidableEq Stg] (lst : LandingSettings)
    (V : Vertical Row Stg) (dates : Dates) (bronze : List Row) (hpos : ∀ r ∈ bronze, 0 < ingestTs r)
    (as : List (Warehouse.Act Row Stg))
    (hapart : Trace.Along (Warehouse.step lst V dates) Warehouse.Apart (.init bronze) as)
    (rows : List Stg) (hrows : rows.Perm
      ((Trace.run (Warehouse.step lst V dates) (.init bronze) as).toStage V)) :
    let w := Trace.run (Warehouse.step lst V dates) (.init bronze) as
    ∃ t, (w.step lst V dates (.stage rows)).staging = some t ∧
      NewestWins V w.store.landing (stgFinal t) := by
  intro w
  have hw : w.Staged V :=
    Trace.run_inv_along (I := Warehouse.Staged V) (fun _ _ hok h => Warehouse.staged_step hok h)
      (Warehouse.staged_init hpos) hapart
  refine ⟨_, ?_, hw.newestWins hrows⟩
  rw [Warehouse.step_stage hrows]

/-- Two posts of one key, the later one landed first; the run dies, the post is staged, and a third one is
landed. -/
def landedOutOfOrder : List (Warehouse.Act BronzeRow StgPost) :=
  [.store (.land (.begin [stampedPost 1 2, stampedPost 0 1])), .store (.land (.insert 0)), .store (.die 0),
    .stage [posts.select (stampedPost 1 2)], .store (.append [stampedPost 2 3]),
    .store (.land (.begin [stampedPost 2 3])), .store (.land (.insert 0)), .store (.land (.finish 0))]

/-- A post of another key. -/
def otherPost : BronzeRow := { stampedPost 3 4 with rkey := "q" }

/-- It is landed too. -/
def landedTwoKeys : List (Warehouse.Act BronzeRow StgPost) :=
  landedOutOfOrder ++ [.store (.append [otherPost]), .store (.land (.begin [otherPost])), .store (.land (.insert 0)),
    .store (.land (.finish 0))]

/-- Of three landed posts with two keys, staging holds two, each under its own `(did, rkey)`. -/
theorem staging_newest_wins_two_keys : ∃ t,
    ((Trace.run (Warehouse.step rowByRow posts (.integer utcDay)) (.init twoRows) landedTwoKeys).step
      rowByRow posts (.integer utcDay) (.stage [posts.select otherPost, posts.select (stampedPost 2 3)])).staging =
        some t ∧
    NewestWins posts [stampedPost 1 2, stampedPost 2 3, otherPost] (stgFinal t) ∧
    ("d", "r") ∈ (stgFinal t).map stgKey ∧ ("d", "q") ∈ (stgFinal t).map stgKey := by
  obtain ⟨t, ht, hwins⟩ := staging_newest_wins rowByRow posts (.integer utcDay) twoRows (by decide) landedTwoKeys
    (by decide) [posts.select otherPost, posts.select (stampedPost 2 3)] (by decide)
  refine ⟨t, ht, hwins, ?_, ?_⟩
  · exact (hwins.keys _).2 ⟨stampedPost 2 3, by decide, rfl⟩
  · exact (hwins.keys _).2 ⟨otherPost, by decide, rfl⟩

end BlueskyTrends
