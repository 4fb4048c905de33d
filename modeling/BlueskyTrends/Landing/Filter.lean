import BlueskyTrends.Landing.Load
import BlueskyTrends.Lib.Iso

/-!
# The row filter

The landing assets hand the watermark to the Iceberg scan as text: the driver of ClickHouse returns a
datetime, with a time zone or without one, and its `isoformat` stands in the filter.

The driver and the reader of row filters are parameters.
-/

namespace BlueskyTrends

/-- `datetime.isoformat`. -/
def DateTime.isoformat (t : DateTime) : String :=
  let (y, m, d) := civil (t.wall / 86400000000)
  let date := padDigits 10 4 y.toNat ++ "-" ++ padDigits 10 2 m.toNat ++ "-" ++ padDigits 10 2 d.toNat
  let zone := match t.utcoffset with
    | none => ""
    | some o => (if o < 0 then "-" else "+") ++ clockText false o.natAbs
  date ++ "T" ++ clockText true (t.wall % 86400000000) ++ zone

/-- The `ts` local of the landing assets. -/
def filterTs (watermark : DateTime) : String :=
  let ts := watermark.isoformat
  if watermark.utcoffset.isNone then ts ++ "+00:00" else ts

/-- The row filter of the landing assets. -/
def rowFilter (watermark : DateTime) : String :=
  "ingest_ts > " ++ String.singleton apostrophe ++ filterTs watermark ++ String.singleton apostrophe

/-- The end of 2299, up to which a `DateTime64` is precise. -/
def dateTime64End : ℤ := 10413792000000000

/-- The driver of ClickHouse: the datetime it returns for a value of type `DateTime64(6)`. A naive one
is in UTC, the offset of any other is of whole minutes. -/
structure ClickHouse where
  datetime : ℤ → DateTime
  instant : ∀ us, 0 < us → us < dateTime64End → (datetime us).wall - (datetime us).utcoffset.getD 0 = us
  minutes : ∀ us o, 0 < us → us < dateTime64End → (datetime us).utcoffset = some o →
    ∃ m, |m| < 1440 ∧ o = 60000000 * m

/-- The reader of row filters: the instant of a literal. It reads the ISO 8601 texts with an offset that
`datetime` can write: those of the years 1 to 9999. -/
structure Iceberg where
  literal : List Char → Option ℤ
  iso : ∀ s : Iso.Stamp, 1 ≤ s.date.year → s.date.year < 10000 → literal s.text = some s.instant

/-- The literal of a filter `ingest_ts > '…'`. -/
def comparand (rowFilter : String) : Option (List Char) :=
  let opening := "ingest_ts > ".toList ++ [apostrophe]
  if opening.isPrefixOf rowFilter.toList then
    let cs := rowFilter.toList.drop opening.length
    if cs.dropWhile (· ≠ apostrophe) = [apostrophe] then some (cs.takeWhile (· ≠ apostrophe)) else none
  else none

variable {Row : Type} [KafkaRow Row]

/-- `table.scan(row_filter=…)`, `none` where the filter is refused. -/
def Iceberg.scan (I : Iceberg) (table : List Row) (rowFilter : String) : Option (List Row) := do
  let literal ← comparand rowFilter
  let ts ← I.literal literal
  return table.filter fun r => ts < ingestTs r

/-- The `scan` local of the landing assets. -/
def filtered (C : ClickHouse) (I : Iceberg) (bronze landing : List Row) : Option (List Row) :=
  match watermark landing with
  | some us => I.scan bronze (rowFilter (C.datetime us))
  | none => some bronze

/-- The body of the landing assets, with the filter as a text; a filter that is refused ends the run. -/
def Store.filterLand [DecidableEq Row] (C : ClickHouse) (I : Iceberg) (st : LandingSettings)
    (s : Store Row) : LandAct Row → Store Row
  | .begin arrow => match filtered C I s.bronze s.landing with
    | some rows =>
      if arrow.Perm rows then { s with jobs := s.jobs ++ [⟨s.bronze, blocksOf st arrow⟩] } else s
    | none => s
  | a => s.land st a

end BlueskyTrends
