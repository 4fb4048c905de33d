import BlueskyTrends.Avro
import BlueskyTrends.Dbt.Models

/-!
# The checks

`checks.py`: for each event type a freshness check of the bronze table, a volume check of the mart
and a null-rate check of staging; and the singular tests of the dbt project. The tables are given as
they are stored, and read with `FINAL`.

* `duplicated_eq_nil_iff`: what a singular test finds nothing in.
-/

namespace BlueskyTrends

open Replacing

/-! ## Results -/

inductive AssetCheckSeverity where
  | warn
  | error
  deriving DecidableEq

/-- A value of the metadata. -/
inductive MetadataValue where
  | text (s : String)
  | int (n : ℕ)
  | float (x : ℚ)
  deriving DecidableEq

/-- `AssetCheckResult`, with the severity it has by default. -/
structure AssetCheckResult where
  passed : Bool
  severity : AssetCheckSeverity := .error
  metadata : List (String × MetadataValue)
  deriving DecidableEq

/-- `@asset_check`. -/
structure AssetCheck (Table : Type) where
  asset : String
  blocking : Bool
  run : Table → AssetCheckResult

/-! ## Freshness -/

/-- `_BRONZE_FRESHNESS_MAX_LAG_S`. -/
def bronzeFreshnessMaxLagS : ℤ := 24 * 3600

/-- `_bronze_freshness`, of the column `created_at`, in microseconds, at the time `now`. -/
def bronzeFreshness (now : ℤ) (createdAt : List ℤ) : AssetCheckResult :=
  match createdAt.max? with
  | none => { passed := false, metadata := [("reason", .text "bronze empty")] }
  | some newest =>
    let lagS : ℚ := (now - newest) / 1000000
    { passed := lagS ≤ bronzeFreshnessMaxLagS
      severity := .warn
      metadata := [("newest_event", .text (DateTime.ofInstant newest).toStr),
        ("lag_seconds", .float (roundTo 1 lagS))] }

/-- A freshness check of a bronze table, and the time it is run at. -/
def freshnessCheck {Row : Type} (asset : String) (createdAt : Row → DateTime) : AssetCheck (ℤ × List Row) :=
  ⟨asset, false, fun x => bronzeFreshness x.1 (x.2.map fun r => (createdAt r).utcMicros)⟩

/-- `check_bronze_freshness`. -/
def checkBronzeFreshness : AssetCheck (ℤ × List BronzeRow) := freshnessCheck "posts_bronze" BronzeRow.createdAt

/-- `check_likes_bronze_freshness`. -/
def checkLikesBronzeFreshness : AssetCheck (ℤ × List LikeRow) := freshnessCheck "likes_bronze" LikeRow.createdAt

/-- `check_follows_bronze_freshness`. -/
def checkFollowsBronzeFreshness : AssetCheck (ℤ × List FollowRow) :=
  freshnessCheck "follows_bronze" FollowRow.createdAt

/-! ## Volume -/

/-- `_MART_VOLUME_MIN_FRACTION`. -/
def martVolumeMinFraction : ℚ := 1 / 4

/-- `count()` of the last day. -/
def latestRows (rows : List MartRow) : ℕ := (rows.filter fun y => y.day = maxDay rows).length

/-- The days before the last, once for each row. -/
def trailingDays (rows : List MartRow) : List ℕ := (rows.filter fun y => y.day < maxDay rows).map MartRow.day

/-- `avg(c)` of the counts of the days before the last, `none` where ClickHouse's is NaN. -/
def trailingAvg (rows : List MartRow) : Option ℚ :=
  let counts := (trailingDays rows).dedup.map fun day => (trailingDays rows).count day
  if counts.isEmpty then none else some (counts.sum / counts.length)

/-- `_mart_volume`, of the rows of a mart. -/
def martVolume (rows : List MartRow) : AssetCheckResult :=
  match (trailingAvg rows).filter (· ≠ 0) with
  | none =>
    { passed := true, metadata := [("latest_rows", .int (latestRows rows)), ("trailing_avg", .text "n/a")] }
  | some trailing =>
    { passed := martVolumeMinFraction * trailing ≤ latestRows rows
      severity := .warn
      metadata := [("latest_rows", .int (latestRows rows)), ("trailing_avg", .float (roundTo 1 trailing))] }

/-- A volume check of a mart. -/
def volumeCheck (mart : String) : AssetCheck (List MartRow) := ⟨mart, false, fun t => martVolume (martFinal t)⟩

/-- `check_mart_volume`. -/
def checkMartVolume : AssetCheck (List MartRow) := volumeCheck "mart_posts_by_lang_daily"

/-- `check_likes_mart_volume`. -/
def checkLikesMartVolume : AssetCheck (List MartRow) := volumeCheck "mart_likes_by_subject_daily"

/-- `check_follows_mart_volume`. -/
def checkFollowsMartVolume : AssetCheck (List MartRow) := volumeCheck "mart_follows_by_subject_daily"

/-! ## Null rate -/

/-- `did = '' OR rkey = '' OR cid = ''`. -/
def EmptyKey {Stg : Type} [StgRow Stg] (s : Stg) : Prop :=
  (StgRow.base s).did = "" ∨ (StgRow.base s).rkey = "" ∨ (StgRow.base s).cid = ""

instance {Stg : Type} [StgRow Stg] (s : Stg) : Decidable (EmptyKey s) := by
  unfold EmptyKey
  infer_instance

/-- `_stg_null_rate`, of the rows of a staging table. -/
def stgNullRate {Stg : Type} [StgRow Stg] (rows : List Stg) : AssetCheckResult :=
  let bad := rows.countP fun s => EmptyKey s
  { passed := bad = 0, severity := .error, metadata := [("empty_key_rows", .int bad)] }

/-- A null-rate check of a staging table. -/
def nullRateCheck {Stg : Type} [StgRow Stg] (stg : String) : AssetCheck (List Stg) :=
  ⟨stg, true, fun t => stgNullRate (stgFinal t)⟩

/-- `check_stg_null_rate`. -/
def checkStgNullRate : AssetCheck (List StgPost) := nullRateCheck "stg_posts"

/-- `check_likes_stg_null_rate`. -/
def checkLikesStgNullRate : AssetCheck (List StgLike) := nullRateCheck "stg_likes"

/-- `check_follows_stg_null_rate`. -/
def checkFollowsStgNullRate : AssetCheck (List StgFollow) := nullRateCheck "stg_follows"

/-! ## The singular tests -/

/-- `group by … having n > 1`. -/
def duplicated {α κ : Type} [DecidableEq κ] (key : α → κ) (rows : List α) : List (κ × ℕ) :=
  ((rows.map key).dedup.map fun k => (k, (rows.map key).count k)).filter fun x => 1 < x.2

/-- `assert_stg_posts_unique`, `assert_stg_likes_unique` and `assert_stg_follows_unique`. -/
def assertStgUnique {Stg : Type} [StgRow Stg] (staging : List Stg) : List ((String × String) × ℕ) :=
  duplicated stgKey (stgFinal staging)

/-- `assert_mart_lang_daily_unique`, `assert_mart_likes_subject_daily_unique` and
`assert_mart_follows_subject_daily_unique`. -/
def assertMartUnique (mart : List MartRow) : List ((ℕ × String) × ℕ) := duplicated MartRow.key (martFinal mart)

theorem duplicated_eq_nil_iff {α κ : Type} [DecidableEq κ] {key : α → κ} {rows : List α} :
    duplicated key rows = [] ↔ (rows.map key).Nodup := by
  unfold duplicated
  rw [List.filter_eq_nil_iff, List.nodup_iff_count_le_one]
  constructor
  · intro h k
    by_contra hk
    have hmem : k ∈ rows.map key := List.count_pos_iff.1 (by omega)
    have hone := h (k, (rows.map key).count k) (List.mem_map.2 ⟨k, List.mem_dedup.2 hmem, rfl⟩)
    rw [decide_eq_true_iff] at hone
    omega
  · intro h x hx
    obtain ⟨k, -, rfl⟩ := List.mem_map.1 hx
    have hk := h k
    rw [decide_eq_true_iff]
    omega

end BlueskyTrends
