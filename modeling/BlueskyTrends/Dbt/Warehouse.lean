import BlueskyTrends.Dbt.Models
import BlueskyTrends.Proof.Duplicates

/-!
# The warehouse

The tables of one event type and what can happen to them: bronze rows are appended and landed, a staging
model runs, a mart model runs, ClickHouse merges parts of a table in the background.
-/

namespace BlueskyTrends

open Replacing

/-- The bronze and landing tables, the staging table and the mart, each `none` before its first run. What
the mart runs have read of staging is history. -/
structure Warehouse (Row Stg : Type) where
  store : Store Row
  staging : Option (List Stg)
  mart : Option (List MartRow)
  read : List Stg

variable {Row Stg : Type} [KafkaRow Row] [StgRow Stg]

namespace Warehouse

def init (bronze : List Row) : Warehouse Row Stg := ⟨.init bronze, none, none, []⟩

/-- A staging run inserts the rows selected in the order `rows`; a mart run is executed on the UTC day
`today`; a merge drops the `i`-th row if it is superseded. -/
inductive Act (Row Stg : Type) where
  | store (a : StoreAct Row)
  | stage (rows : List Stg)
  | mart (today : ℕ)
  | mergeStaging (i : ℕ)
  | mergeMart (i : ℕ)

/-- The rows the next staging run inserts. -/
def toStage (V : Vertical Row Stg) (w : Warehouse Row Stg) : List Stg :=
  V.newlyLanded w.store.landing w.staging

variable [DecidableEq Row] [DecidableEq Stg]

def step (lst : LandingSettings) (V : Vertical Row Stg) (dates : Dates) (w : Warehouse Row Stg) :
    Act Row Stg → Warehouse Row Stg
  | .store a => { w with store := w.store.step lst a }
  | .stage rows =>
    if rows.Perm (w.toStage V) then { w with staging := some (w.staging.getD [] ++ rows) } else w
  | .mart _ => match w.staging with
    -- without a staging table the run fails
    | none => w
    | some staging => { w with
        mart := some (w.mart.getD [] ++ V.reaggregated dates staging w.mart)
        read := w.read ++ stgFinal staging }
  | .mergeStaging i => { w with staging := w.staging.map fun t => collapse stgKey stgTs t i }
  | .mergeMart i => { w with mart := w.mart.map fun t => collapse MartRow.key (fun _ => ()) t i }

variable {lst : LandingSettings} {V : Vertical Row Stg} {dates : Dates} {w : Warehouse Row Stg}

theorem step_stage {rows : List Stg} (h : rows.Perm (w.toStage V)) :
    w.step lst V dates (.stage rows) = { w with staging := some (w.staging.getD [] ++ rows) } := if_pos h

theorem step_mart {staging : List Stg} (h : w.staging = some staging) (today : ℕ) :
    w.step lst V dates (.mart today) = { w with
      mart := some (w.mart.getD [] ++ V.reaggregated dates staging w.mart)
      read := w.read ++ stgFinal staging } := by
  simp only [step, h]

/-- A mart run leaves the bronze and landing tables, and staging. -/
@[simp] theorem step_mart_store (today : ℕ) : (w.step lst V dates (.mart today)).store = w.store := by
  rw [step]
  split <;> rfl

@[simp] theorem step_mart_staging (today : ℕ) :
    (w.step lst V dates (.mart today)).staging = w.staging := by
  rw [step]
  split <;> simp [*]

end Warehouse

end BlueskyTrends
