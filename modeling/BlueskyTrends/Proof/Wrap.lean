import BlueskyTrends.Proof.Window

/-!
# When the window of a mart wraps

A `Date` is an unsigned 16-bit number of days. Over an empty mart `max(day)` is day 0, and two days before it lie at
the end of the calendar: nothing is later, and the mart stays empty.

* `wrapping_le_iff`: the bound is below the last day exactly if that is the third day of the calendar or later.
* `sound_iff_readsLater`: a run has a sound window exactly if an earlier one has read a record of such a day.
-/

namespace BlueskyTrends

open HighWater Replacing

/-- ClickHouse's arithmetic of dates. -/
def Dates.wrapping (toDate : ℤ → ℕ) : Dates := ⟨toDate, fun day n => ((day : ℤ) - n) % 2 ^ 16⟩

variable {Row Stg : Type} [StgRow Stg] {toDate : ℤ → ℕ}

theorem wrapping_le_iff {this : List MartRow} :
    lowerBound (.wrapping toDate) this ≤ maxDay this ↔ 2 ≤ maxDay this := by
  have hbound : lowerBound (.wrapping toDate) this = ((maxDay this : ℤ) - 2) % 65536 := rfl
  rw [hbound]
  constructor
  · intro hle
    by_contra hlt
    -- the first two days wrap to the last two
    have hday : maxDay this = 0 ∨ maxDay this = 1 := by omega
    rcases hday with hday | hday
    · rw [hday] at hle
      norm_num at hle
    · rw [hday] at hle
      norm_num at hle
  · intro hday
    omega

namespace Warehouse

variable {w : Warehouse Row Stg}

/-- An incremental run has a window that starts no later than the last day of the mart, so it aggregates every record
of that day and later ones; on an empty mart it aggregates what a full build does. -/
def SoundWindow (dates : Dates) (w : Warehouse Row Stg) : Act Row Stg → Prop
  | .mart _ => ∀ staging ∈ w.staging, ∀ this ∈ w.mart,
      lowerBound dates this ≤ maxDay this ∧
      (∀ x ∈ stgFinal staging, maxDay this ≤ dayOf dates x → x ∈ window dates staging (some this)) ∧
      (this = [] → window dates staging (some this) = window dates staging none)
  | _ => True

instance [DecidableEq Stg] (dates : Dates) (w : Warehouse Row Stg) : ∀ a, Decidable (w.SoundWindow dates a)
  | .mart _ => inferInstanceAs (Decidable (∀ staging ∈ w.staging, ∀ this ∈ w.mart,
      lowerBound dates this ≤ maxDay this ∧
      (∀ x ∈ stgFinal staging, maxDay this ≤ dayOf dates x → x ∈ window dates staging (some this)) ∧
      (this = [] → window dates staging (some this) = window dates staging none)))
  | .store _ | .stage _ | .mergeStaging _ | .mergeMart _ => isTrue trivial

/-- An earlier run of the mart has read a record dated on the third day of the calendar, 1970-01-03, or later. -/
def ReadsLater (dates : Dates) (w : Warehouse Row Stg) : Act Row Stg → Prop
  | .mart _ => ∀ staging ∈ w.staging, ∀ this ∈ w.mart, ∃ x ∈ w.read, 2 ≤ dayOf dates x
  | _ => True

theorem SoundWindow.starts {dates : Dates} {a : Act Row Stg} (h : w.SoundWindow dates a) : w.Starts dates a := by
  cases a with
  | mart today => exact fun staging hs this ht => (h staging hs this ht).1
  | store | stage | mergeStaging | mergeMart => trivial

/-- **A run's window is sound exactly if a late enough record has been read.** -/
theorem sound_iff_readsLater (h : w.Covers (.wrapping toDate)) {a : Act Row Stg} :
    w.SoundWindow (.wrapping toDate) a ↔ w.ReadsLater (.wrapping toDate) a := by
  cases a with
  | mart today =>
    refine forall₂_congr fun staging hs => forall₂_congr fun this ht => ?_
    -- the last day of the mart is that of the records read
    have hread : 2 ≤ maxDay this ↔ ∃ x ∈ w.read, 2 ≤ dayOf (.wrapping toDate) x := by
      have hle := h.maxDay_le_iff ht (d := 1)
      constructor
      · intro hday
        by_contra hno
        push Not at hno
        have := hle.2 fun x hx => Nat.lt_succ_iff.1 (hno x hx)
        omega
      · rintro ⟨x, hx, hday⟩
        by_contra hlt
        have := hle.1 (by omega) x hx
        omega
    rw [← hread]
    constructor
    · intro hsound
      exact wrapping_le_iff.1 hsound.1
    · intro hday
      have hbound : lowerBound (.wrapping toDate) this ≤ maxDay this := wrapping_le_iff.2 hday
      refine ⟨hbound, ?_, ?_⟩
      · intro x hx hmax
        have hle : lowerBound (.wrapping toDate) this ≤ dayOf (.wrapping toDate) x :=
          hbound.trans (by exact_mod_cast hmax)
        exact List.mem_filter.2 ⟨hx, by simpa using hle⟩
      · intro hnil
        subst hnil
        exact absurd hday (by decide)
  | store | stage | mergeStaging | mergeMart => exact Iff.rfl

end Warehouse

/-- **The window, with dates that wrap.** In any history of the tables, every incremental run of the mart has a sound
window exactly if each comes after a run that has read a record dated on the third day of the calendar or later. -/
theorem window_sound_iff [KafkaRow Row] [DecidableEq Row] [DecidableEq Stg] (lst : LandingSettings)
    (V : Vertical Row Stg) (toDate : ℤ → ℕ) (bronze : List Row) (as : List (Warehouse.Act Row Stg)) :
    Trace.Along (Warehouse.step lst V (.wrapping toDate)) (Warehouse.SoundWindow (.wrapping toDate))
        (.init bronze) as ↔
      Trace.Along (Warehouse.step lst V (.wrapping toDate)) (Warehouse.ReadsLater (.wrapping toDate))
        (.init bronze) as := by
  constructor
  · exact Trace.along_imp_inv (I := Warehouse.Covers (.wrapping toDate))
      (fun _ _ h => (Warehouse.sound_iff_readsLater h).1)
      (fun _ _ ha h => Warehouse.covers_step ((Warehouse.sound_iff_readsLater h).2 ha).starts h)
      (Warehouse.covers_init _ bronze)
  · exact Trace.along_imp_inv (I := Warehouse.Covers (.wrapping toDate))
      (fun _ _ h => (Warehouse.sound_iff_readsLater h).2)
      (fun _ _ ha h => Warehouse.covers_step ha.starts h)
      (Warehouse.covers_init _ bronze)

/-- The mart is first run on an empty staging table; then a post is landed and staged, and it is run again. -/
def emptyFirst : List (Warehouse.Act BronzeRow StgPost) :=
  .stage [] :: .mart 100 :: .store (.append [taggedPost "a" 100 [] 1]) :: loadedOn 100 (taggedPost "a" 100 [] 1)

/-- **The mart stays empty**, where a full build has a row. -/
theorem empty_mart_stays :
    ¬ Trace.Along (Warehouse.step rowByRow posts (.wrapping utcDay)) (Warehouse.SoundWindow (.wrapping utcDay))
      (.init []) emptyFirst ∧
    (Trace.run (Warehouse.step rowByRow posts (.wrapping utcDay)) (.init []) emptyFirst).mart = some [] ∧
    martPostsByLangDaily (.wrapping utcDay) [posts.select (taggedPost "a" 100 [] 1)] none = [⟨100, "und", 1, 1⟩] ∧
    lowerBound (.wrapping utcDay) [] = 65534 ∧ maxDay [] = 0 := by
  decide

end BlueskyTrends
