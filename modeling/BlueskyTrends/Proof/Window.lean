import BlueskyTrends.Proof.Marts

/-!
# When the window of a mart reaches the current days

The window starts two days before the last day of the mart. That is the last day of all the records its runs
have read, since a run aggregates at least the records later than its mart.

* `covers_step`: the days of a mart are those of records read, and none was later.
* `reaches_iff_noneAhead`: the window reaches a record exactly when none read before is more than two days
  later.
-/

namespace BlueskyTrends

open HighWater Replacing

variable {Row Stg : Type} [StgRow Stg] {toDate : ℤ → ℕ}

theorem maxDay_le_iff {this : List MartRow} {d : ℕ} : maxDay this ≤ d ↔ ∀ y ∈ this, y.day ≤ d := by
  constructor
  · intro h y hy
    exact (le_greatest (List.mem_map.2 ⟨y, hy, rfl⟩)).trans h
  · intro h
    unfold maxDay
    by_cases hnil : this = []
    · subst hnil
      exact Nat.zero_le d
    · have hne : this.map MartRow.day ≠ [] := by simpa using hnil
      obtain ⟨y, hy, hmax⟩ := List.mem_map.1 (greatest_mem (d := 0) hne)
      rw [← hmax]
      exact h y hy

namespace Warehouse

variable {w : Warehouse Row Stg}

/-- A mart run reads every record of staging dated on `today` or the two days before. -/
def Reaches (dates : Dates) (w : Warehouse Row Stg) : Act Row Stg → Prop
  | .mart today => ∀ staging ∈ w.staging, ∀ this ∈ w.mart, this ≠ [] → ∀ x ∈ stgFinal staging,
      today ≤ dayOf dates x + 2 → dayOf dates x ≤ today → x ∈ window dates staging (some this)
  | _ => True

/-- No record that an earlier mart run has read is dated more than two days after a record of staging dated
on `today` or the two days before. -/
def NoneAhead (dates : Dates) (w : Warehouse Row Stg) : Act Row Stg → Prop
  | .mart today => ∀ staging ∈ w.staging, ∀ x ∈ stgFinal staging,
      today ≤ dayOf dates x + 2 → dayOf dates x ≤ today → ∀ x' ∈ w.read, dayOf dates x' ≤ dayOf dates x + 2
  | _ => True

instance [DecidableEq Stg] (dates : Dates) (w : Warehouse Row Stg) : ∀ a, Decidable (w.Reaches dates a)
  | .mart today => inferInstanceAs (Decidable (∀ staging ∈ w.staging, ∀ this ∈ w.mart, this ≠ [] →
      ∀ x ∈ stgFinal staging, today ≤ dayOf dates x + 2 → dayOf dates x ≤ today →
        x ∈ window dates staging (some this)))
  | .store _ | .stage _ | .mergeStaging _ | .mergeMart _ => isTrue trivial

/-- The mart has a day at least as late as every record read, and no other days. -/
structure Covers (dates : Dates) (w : Warehouse Row Stg) : Prop where
  unread : w.mart = none → w.read = []
  source : ∀ m ∈ w.mart, ∀ y ∈ m, ∃ x ∈ w.read, dayOf dates x = y.day
  covered : ∀ m ∈ w.mart, ∀ x ∈ w.read, ∃ y ∈ m, dayOf dates x ≤ y.day

theorem covers_init (dates : Dates) (bronze : List Row) : (init bronze : Warehouse Row Stg).Covers dates :=
  ⟨fun _ => rfl, by simp [init], by simp [init]⟩

/-- The last day of the mart is that of the records read. -/
theorem Covers.maxDay_le_iff {dates : Dates} (h : w.Covers dates) {this : List MartRow}
    (ht : w.mart = some this) {d : ℕ} : maxDay this ≤ d ↔ ∀ x ∈ w.read, dayOf dates x ≤ d := by
  rw [BlueskyTrends.maxDay_le_iff]
  constructor
  · intro hle x hx
    obtain ⟨y, hy, hxy⟩ := h.covered this ht x hx
    exact hxy.trans (hle y hy)
  · intro hle y hy
    obtain ⟨x, hx, hxy⟩ := h.source this ht y hy
    exact hxy ▸ hle x hx

/-- A record is in the window when the last day of the mart is at most two days later. -/
theorem mem_window_iff {staging : List Stg} {this : List MartRow} {x : Stg} :
    x ∈ window (.integer toDate) staging (some this) ↔
      x ∈ stgFinal staging ∧ maxDay this ≤ dayOf (.integer toDate) x + 2 := by
  have hbound : lowerBound (.integer toDate) this = (maxDay this : ℤ) - 2 := rfl
  simp only [window, List.mem_filter, hbound, decide_eq_true_eq]
  refine and_congr_right fun _ => ?_
  omega

/-- **The window reaches exactly what none read before is ahead of.** -/
theorem reaches_iff_noneAhead (h : w.Covers (.integer toDate)) {a : Act Row Stg} :
    w.Reaches (.integer toDate) a ↔ w.NoneAhead (.integer toDate) a := by
  cases a with
  | mart today =>
    refine forall₂_congr fun staging hs => ?_
    constructor
    · intro hreach x hx hlo hhi
      cases hm : w.mart with
      | none => simp [h.unread hm]
      | some this =>
        rw [← h.maxDay_le_iff hm]
        by_cases hnil : this = []
        · subst hnil
          exact Nat.zero_le _
        · exact (mem_window_iff.1 (hreach this hm hnil x hx hlo hhi)).2
    · intro hahead this ht _ x hx hlo hhi
      exact mem_window_iff.2 ⟨hx, (h.maxDay_le_iff ht).2 (hahead x hx hlo hhi)⟩
  | store | stage | mergeStaging | mergeMart => exact Iff.rfl

variable [KafkaRow Row] {V : Vertical Row Stg}

/-- Every record aggregated gives a row of its day. -/
theorem exists_reaggregated {dates : Dates} {staging : List Stg} {mart : Option (List MartRow)} {x : Stg}
    (hx : x ∈ window dates staging mart) :
    ∃ y ∈ V.reaggregated dates staging mart, y.day = dayOf dates x := by
  obtain ⟨g, hg⟩ := List.exists_mem_of_ne_nil _ (V.nonempty x)
  have hkey : (dayOf dates x, g) ∈ (V.reaggregated dates staging mart).map MartRow.key :=
    mem_map_key_aggregate.2 ⟨x, hx, rfl, hg⟩
  obtain ⟨y, hy, hyk⟩ := List.mem_map.1 hkey
  exact ⟨y, hy, congrArg Prod.fst hyk⟩

theorem window_subset {dates : Dates} {staging : List Stg} {mart : Option (List MartRow)} :
    window dates staging mart ⊆ stgFinal staging := by
  cases mart with
  | none => exact List.Subset.refl _
  | some this => exact List.filter_subset_self _

/-- **A mart run** keeps the days of its mart the days of the records read, if its window starts no later than
the last day of the mart. -/
theorem Covers.mart {dates : Dates} (h : w.Covers dates)
    (hbound : ∀ this ∈ w.mart, lowerBound dates this ≤ maxDay this) {staging : List Stg} :
    Covers dates { w with
      mart := some (w.mart.getD [] ++ V.reaggregated dates staging w.mart)
      read := w.read ++ stgFinal staging } := by
  refine ⟨by simp, ?_, ?_⟩
  · rintro m ⟨⟩ y hy
    rcases List.mem_append.1 hy with hy | hy
    · cases hm : w.mart with
      | none => simp [hm] at hy
      | some this =>
        rw [hm] at hy
        obtain ⟨x, hx, hxy⟩ := h.source this hm y hy
        exact ⟨x, List.mem_append_left _ hx, hxy⟩
    · obtain ⟨x, hx, hd, -⟩ := mem_map_key_aggregate.1 (List.mem_map.2 ⟨y, hy, rfl⟩)
      exact ⟨x, List.mem_append_right _ (window_subset hx), hd⟩
  · rintro m ⟨⟩ x hx
    have hinserted : x ∈ window dates staging w.mart →
        ∃ y ∈ w.mart.getD [] ++ V.reaggregated dates staging w.mart, dayOf dates x ≤ y.day := by
      intro hwin
      obtain ⟨y, hy, hyd⟩ := exists_reaggregated (V := V) hwin
      exact ⟨y, List.mem_append_right _ hy, hyd.ge⟩
    cases hm : w.mart with
    | none =>
      rw [hm] at hinserted
      rcases List.mem_append.1 hx with hx | hx
      · rw [h.unread hm] at hx
        cases hx
      · exact hinserted hx
    | some this =>
      rw [hm] at hinserted
      rcases List.mem_append.1 hx with hx | hx
      · obtain ⟨y, hy, hxy⟩ := h.covered this hm x hx
        exact ⟨y, List.mem_append_left _ hy, hxy⟩
      · -- a record before the window is before the last day of the mart
        by_cases hwin : x ∈ window dates staging (some this)
        · exact hinserted hwin
        · have hlt : (dayOf dates x : ℤ) < lowerBound dates this := by
            by_contra hno
            exact hwin (List.mem_filter.2 ⟨hx, by simpa using not_lt.1 hno⟩)
          have hmax := hbound this hm
          have hno : ¬ ∀ y ∈ this, y.day ≤ dayOf dates x := by
            intro hall
            have := BlueskyTrends.maxDay_le_iff.2 hall
            omega
          push Not at hno
          obtain ⟨y, hy, hxy⟩ := hno
          exact ⟨y, List.mem_append_left _ hy, hxy.le⟩

/-- The window of a mart run starts no later than the last day of the mart. -/
def Starts (dates : Dates) (w : Warehouse Row Stg) : Act Row Stg → Prop
  | .mart _ => ∀ staging ∈ w.staging, ∀ this ∈ w.mart, lowerBound dates this ≤ maxDay this
  | _ => True

omit [StgRow Stg] [KafkaRow Row] in
/-- Dates that do not wrap start it two days before. -/
theorem starts_integer (w : Warehouse Row Stg) (a : Act Row Stg) : w.Starts (.integer toDate) a := by
  cases a with
  | mart today =>
    intro staging _ this _
    have hbound : lowerBound (.integer toDate) this = (maxDay this : ℤ) - 2 := rfl
    omega
  | store | stage | mergeStaging | mergeMart => trivial

variable [DecidableEq Row] [DecidableEq Stg] {lst : LandingSettings}

theorem covers_step {dates : Dates} {a : Act Row Stg} (ha : w.Starts dates a) (h : w.Covers dates) :
    (w.step lst V dates a).Covers dates := by
  cases a with
  | store a => exact ⟨h.unread, h.source, h.covered⟩
  | stage rows =>
    rw [step]
    split
    · exact ⟨h.unread, h.source, h.covered⟩
    · exact h
  | mart today =>
    cases hs : w.staging with
    | none =>
      rw [step, hs]
      exact h
    | some staging =>
      rw [step_mart hs]
      exact h.mart (ha staging hs)
  | mergeStaging i => exact ⟨h.unread, h.source, h.covered⟩
  | mergeMart i =>
    -- a row dropped has another of its day
    refine ⟨?_, ?_, ?_⟩
    · intro hm
      exact h.unread (Option.map_eq_none_iff.1 hm)
    · intro m hm y hy
      obtain ⟨t, ht, rfl⟩ := Option.map_eq_some_iff.1 hm
      exact h.source t ht y (collapse_sublist.subset hy)
    · intro m hm x hx
      obtain ⟨t, ht, rfl⟩ := Option.map_eq_some_iff.1 hm
      obtain ⟨y, hy, hxy⟩ := h.covered t ht x hx
      obtain ⟨z, hz, hzk, -⟩ := exists_collapse MartRow.key (fun _ => ()) i hy
      exact ⟨z, hz, hxy.trans_eq (congrArg Prod.fst hzk).symm⟩

end Warehouse

/-- **The window, exactly.** In any history of the tables, every incremental run on a mart that is not empty
reads the records of staging dated on its day and the two days before, exactly when no earlier run has read
a record dated more than two days after one of them. -/
theorem window_reaches_iff [KafkaRow Row] [DecidableEq Row] [DecidableEq Stg] (lst : LandingSettings)
    (V : Vertical Row Stg) (toDate : ℤ → ℕ) (bronze : List Row) (as : List (Warehouse.Act Row Stg)) :
    Trace.Along (Warehouse.step lst V (.integer toDate)) (Warehouse.Reaches (.integer toDate))
        (.init bronze) as ↔
      Trace.Along (Warehouse.step lst V (.integer toDate)) (Warehouse.NoneAhead (.integer toDate))
        (.init bronze) as := by
  constructor
  · exact Trace.along_imp_inv (I := Warehouse.Covers (.integer toDate))
      (fun _ _ h => (Warehouse.reaches_iff_noneAhead h).1)
      (fun w a _ h => Warehouse.covers_step (Warehouse.starts_integer w a) h)
      (Warehouse.covers_init _ bronze)
  · exact Trace.along_imp_inv (I := Warehouse.Covers (.integer toDate))
      (fun _ _ h => (Warehouse.reaches_iff_noneAhead h).2)
      (fun w a _ h => Warehouse.covers_step (Warehouse.starts_integer w a) h)
      (Warehouse.covers_init _ bronze)

/-- A post dated a month ahead is counted; on its own day, another one is late by no day. -/
def monthAhead : List (Warehouse.Act BronzeRow StgPost) :=
  loadedOn 100 (taggedPost "a" 130 [] 1) ++
    .store (.append [taggedPost "b" 100 [] 2]) :: loadedOn 100 (taggedPost "b" 100 [] 2)

/-- **The post of the day is not counted.** -/
theorem window_starts_ahead :
    (Trace.run (Warehouse.step rowByRow posts (.integer utcDay)) (.init [taggedPost "a" 130 [] 1])
      monthAhead).mart.map martFinal = some [⟨130, "und", 1, 1⟩] ∧
    ¬ Trace.Along (Warehouse.step rowByRow posts (.integer utcDay))
      (Warehouse.Reaches (.integer utcDay)) (.init [taggedPost "a" 130 [] 1]) monthAhead := by
  decide

end BlueskyTrends
