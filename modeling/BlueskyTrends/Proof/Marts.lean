import BlueskyTrends.Proof.Staging

/-!
# When a mart is the aggregate of staging

A mart run inserts the groups of its window over the old ones. A group that has lost its last record is not
inserted again, and its old row stays.

* `mem_martFinal_append`: what a mart reads as after a run.
* `exact_iff_noneVanished`: a run leaves the aggregate exactly when every group of the window has a record
  left.
-/

namespace BlueskyTrends

open HighWater Replacing

variable {Row Stg : Type} [KafkaRow Row] [StgRow Stg] {V : Vertical Row Stg} {dates : Dates}
  {staging : List Stg} {this : List MartRow} {y : MartRow}

/-- **What a mart reads as after a run**: the rows inserted, and the old row of every other group. -/
theorem mem_martFinal_append {mart : Option (List MartRow)} :
    y ∈ martFinal (this ++ V.reaggregated dates staging mart) ↔
      y ∈ V.reaggregated dates staging mart ∨
        y ∈ martFinal this ∧ y.key ∉ (V.reaggregated dates staging mart).map MartRow.key :=
  mem_final_append nodup_aggregate

/-- The rows that an incremental run inserts are the aggregate's in its window. -/
theorem mem_reaggregated : y ∈ V.reaggregated dates staging (some this) ↔
    y ∈ aggregate dates V.groups (stgFinal staging) ∧ lowerBound dates this ≤ y.day := by
  have h : y ∈ V.reaggregated dates staging (some this) ↔
      y ∈ aggregate dates V.groups (stgFinal staging) ∧ decide (lowerBound dates this ≤ y.day) :=
    mem_aggregate_filter fun day => decide (lowerBound dates this ≤ day)
  rw [h, decide_eq_true_iff]

theorem mem_map_key_reaggregated {k : ℕ × String} :
    k ∈ (V.reaggregated dates staging (some this)).map MartRow.key ↔
      lowerBound dates this ≤ k.1 ∧ ∃ x ∈ stgFinal staging, dayOf dates x = k.1 ∧ k.2 ∈ V.groups x := by
  rw [Vertical.reaggregated, mem_map_key_aggregate]
  simp only [window, List.mem_filter, decide_eq_true_eq]
  constructor
  · rintro ⟨x, ⟨hx, hle⟩, hd, hg⟩
    exact ⟨hd ▸ hle, x, hx, hd, hg⟩
  · rintro ⟨hle, x, hx, hd, hg⟩
    exact ⟨x, ⟨hx, hd ▸ hle⟩, hd, hg⟩

/-- **A run leaves the aggregate exactly when every group has a record left.** -/
theorem perm_iff_noneVanished :
    ((martFinal (this ++ V.reaggregated dates staging (some this))).filter
        fun y => lowerBound dates this ≤ y.day).Perm
      (aggregate dates V.groups ((stgFinal staging).filter fun x => lowerBound dates this ≤ dayOf dates x)) ↔
    ∀ y ∈ this, lowerBound dates this ≤ y.day →
      ∃ x ∈ stgFinal staging, dayOf dates x = y.day ∧ y.group ∈ V.groups x := by
  have hleft : ((martFinal (this ++ V.reaggregated dates staging (some this))).filter
      fun y => lowerBound dates this ≤ y.day).Nodup := nodup_final.of_map.filter _
  have hright : (V.reaggregated dates staging (some this)).Nodup := nodup_aggregate.of_map
  have hrecord : ∀ y : MartRow, lowerBound dates this ≤ y.day →
      (y.key ∈ (V.reaggregated dates staging (some this)).map MartRow.key ↔
        ∃ x ∈ stgFinal staging, dayOf dates x = y.day ∧ y.group ∈ V.groups x) := by
    intro y hle
    rw [mem_map_key_reaggregated]
    exact and_iff_right hle
  refine (List.perm_ext_iff_of_nodup hleft hright).trans ?_
  simp only [List.mem_filter, decide_eq_true_eq, mem_martFinal_append]
  constructor
  · intro h y hy hle
    -- the key of the row is read, and what is read is inserted
    have hkey : y.key ∈ (martFinal (this ++ V.reaggregated dates staging (some this))).map MartRow.key := by
      rw [martFinal, mem_map_final, List.map_append]
      exact List.mem_append_left _ (List.mem_map.2 ⟨y, hy, rfl⟩)
    obtain ⟨z, hz, hzk⟩ := List.mem_map.1 hkey
    have hday : z.day = y.day := congrArg Prod.fst hzk
    have hins := (h z).1 ⟨mem_martFinal_append.1 hz, hday ▸ hle⟩
    rw [← hrecord y hle, ← hzk]
    exact List.mem_map.2 ⟨z, hins, rfl⟩
  · intro h y
    constructor
    · rintro ⟨hy | ⟨hy, hnot⟩, hle⟩
      · exact hy
      · exact absurd ((hrecord y hle).2 (h y (final_subset hy) hle)) hnot
    · intro hy
      exact ⟨Or.inl hy, (mem_reaggregated.1 hy).2⟩

namespace Warehouse

variable [DecidableEq Row] [DecidableEq Stg]

/-- The mart, read with `FINAL` from the lower bound on, is after an incremental run the model's `GROUP BY`
over staging `FINAL` from the lower bound on. -/
def Exact (lst : LandingSettings) (V : Vertical Row Stg) (dates : Dates) (w : Warehouse Row Stg) :
    Act Row Stg → Prop
  | .mart today => ∀ staging ∈ w.staging, ∀ this ∈ w.mart,
    ∀ mart ∈ (w.step lst V dates (.mart today)).mart,
      ((martFinal mart).filter fun y => lowerBound dates this ≤ y.day).Perm
        (aggregate dates V.groups ((stgFinal staging).filter fun x => lowerBound dates this ≤ dayOf dates x))
  | _ => True

/-- Every row of the mart from the lower bound on is of a group that has a record left in staging. -/
def NoneVanished (V : Vertical Row Stg) (dates : Dates) (w : Warehouse Row Stg) : Act Row Stg → Prop
  | .mart _ => ∀ staging ∈ w.staging, ∀ this ∈ w.mart, ∀ y ∈ this, lowerBound dates this ≤ y.day →
      ∃ x ∈ stgFinal staging, dayOf dates x = y.day ∧ y.group ∈ V.groups x
  | _ => True

instance (lst : LandingSettings) (V : Vertical Row Stg) (dates : Dates) (w : Warehouse Row Stg) :
    ∀ a, Decidable (w.Exact lst V dates a)
  | .mart today => inferInstanceAs (Decidable (∀ staging ∈ w.staging, ∀ this ∈ w.mart,
      ∀ mart ∈ (w.step lst V dates (.mart today)).mart,
        ((martFinal mart).filter fun y => lowerBound dates this ≤ y.day).Perm
          (aggregate dates V.groups
            ((stgFinal staging).filter fun x => lowerBound dates this ≤ dayOf dates x))))
  | .store _ | .stage _ | .mergeStaging _ | .mergeMart _ => isTrue trivial

instance (V : Vertical Row Stg) (dates : Dates) (w : Warehouse Row Stg) :
    ∀ a, Decidable (w.NoneVanished V dates a)
  | .mart _ => inferInstanceAs (Decidable (∀ staging ∈ w.staging, ∀ this ∈ w.mart, ∀ y ∈ this,
      lowerBound dates this ≤ y.day →
        ∃ x ∈ stgFinal staging, dayOf dates x = y.day ∧ y.group ∈ V.groups x))
  | .store _ | .stage _ | .mergeStaging _ | .mergeMart _ => isTrue trivial

theorem exact_iff_noneVanished {lst : LandingSettings} {w : Warehouse Row Stg} {a : Act Row Stg} :
    w.Exact lst V dates a ↔ w.NoneVanished V dates a := by
  cases a with
  | mart today =>
    refine forall₂_congr fun staging hs => forall₂_congr fun this ht => ?_
    rw [step_mart hs today, Option.mem_def.1 ht]
    rw [← perm_iff_noneVanished]
    simp
  | store | stage | mergeStaging | mergeMart => exact Iff.rfl

end Warehouse

/-- **The mart, exactly.** In any history of the tables, every incremental mart run leaves in its window the
aggregate of staging, exactly when no run finds in its window a group without a record left. -/
theorem mart_exact_iff [DecidableEq Row] [DecidableEq Stg] (lst : LandingSettings) (V : Vertical Row Stg)
    (dates : Dates) (bronze : List Row) (as : List (Warehouse.Act Row Stg)) :
    Trace.Along (Warehouse.step lst V dates) (Warehouse.Exact lst V dates) (.init bronze) as ↔
      Trace.Along (Warehouse.step lst V dates) (Warehouse.NoneVanished V dates) (.init bronze) as := by
  constructor
  · exact Trace.along_mono fun _ _ h => Warehouse.exact_iff_noneVanished.1 h
  · exact Trace.along_mono fun _ _ h => Warehouse.exact_iff_noneVanished.2 h

/-- A post created at noon of a day, with language tags, stamped `ts`. -/
def taggedPost (rkey : String) (day : ℤ) (langs : List String) (ts : ℤ) : BronzeRow :=
  ⟨⟨0, 0, ts⟩, "d", rkey, "c", ⟨86400000000 * day + 43200000000, some 0⟩, "t", langs, none, none⟩

/-- A row is landed and staged, and the mart runs. -/
def loadedOn (today : ℕ) (row : BronzeRow) : List (Warehouse.Act BronzeRow StgPost) :=
  [.store (.land (.begin [row])), .store (.land (.insert 0)), .store (.land (.finish 0)),
    .stage [posts.select row], .mart today]

/-- A post without a tag is counted, then it is landed again with one. -/
def retagged : List (Warehouse.Act BronzeRow StgPost) :=
  loadedOn 100 (taggedPost "r" 100 [] 1) ++
    .store (.append [taggedPost "r" 100 ["en"] 2]) :: loadedOn 100 (taggedPost "r" 100 ["en"] 2)

/-- **The post is still counted without a tag.** -/
theorem mart_keeps_vanished_group :
    (Trace.run (Warehouse.step rowByRow posts (.integer utcDay)) (.init [taggedPost "r" 100 [] 1])
      retagged).mart.map martFinal = some [⟨100, "und", 1, 1⟩, ⟨100, "en", 1, 1⟩] ∧
    ¬ Trace.Along (Warehouse.step rowByRow posts (.integer utcDay))
      (Warehouse.Exact rowByRow posts (.integer utcDay)) (.init [taggedPost "r" 100 [] 1]) retagged := by
  decide

end BlueskyTrends
