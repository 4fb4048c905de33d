import BlueskyTrends.Landing.Filter
import BlueskyTrends.Proof.Dumps
import BlueskyTrends.Proof.Partitions
import BlueskyTrends.Proof.Provenance

/-!
# The watermark survives its text

A landing run reads its watermark from ClickHouse as a datetime, writes it into a row filter, and has
Iceberg read the text again.

* `civil_eq`: the dates of Python are those of the calendar.
* `filterTs_text`: what stands in the filter is an ISO 8601 text of the watermark.
* `filtered_eq`: the scan is above the watermark.
* `filter_run`: **the pipeline with the text is the pipeline without it.**
-/

namespace BlueskyTrends

open Calendar

/-! ## Dates -/

/-- **The dates of Python are those of the calendar.** -/
theorem civil_eq (n : ℤ) :
    civil n = ((Date.ofNumber n).year, (Date.ofNumber n).month, (Date.ofNumber n).day) := rfl

/-! ## The text -/

/-- Padded digits are those of a number of fixed width. -/
theorem toList_padDigits_digits {w n : ℕ} (h : n < 10 ^ (w + 1)) :
    (padDigits 10 (w + 1) n).toList = Iso.digits (w + 1) n := by
  induction w generalizing n with
  | zero => interval_cases n <;> rfl
  | succ w ih =>
    have hlt : n / 10 < 10 ^ (w + 1) := by rw [pow_succ] at h; omega
    rw [Iso.digits, ← ih hlt, toList_padDigits, toList_padDigits]
    by_cases hn : n < 10
    · have hzero : n / 10 = 0 := by omega
      rw [hzero, Nat.mod_eq_of_lt hn, Nat.toDigits_of_lt_base hn, Nat.toDigits_zero]
      simp [List.replicate_succ']
    · rw [Nat.toDigits_of_base_le (by omega) (by omega)]
      simp

theorem toList_two {n : ℤ} (h0 : 0 ≤ n) (h : n < 100) :
    (padDigits 10 2 n.toNat).toList = Iso.digits 2 n.toNat :=
  toList_padDigits_digits (by omega)

/-- A time of day is written as the format has it. -/
theorem clockText_iso {us : ℤ} (h0 : 0 ≤ us) (h : us < 86400000000) :
    (clockText true us).toList = Iso.clockText us := by
  have hhour : us / 1000000 / 3600 = us / 3600000000 := by omega
  have hminute : us / 1000000 / 60 % 60 = us / 60000000 % 60 := by omega
  have hh := toList_two (n := us / 3600000000) (by omega) (by omega)
  have hm := toList_two (n := us / 60000000 % 60) (by omega) (by omega)
  have hs := toList_two (n := us / 1000000 % 60) (by omega) (by omega)
  have hf : (padDigits 10 6 (us % 1000000).toNat).toList = Iso.digits 6 (us % 1000000).toNat :=
    toList_padDigits_digits (by omega)
  unfold clockText Iso.clockText
  simp only [hhour, hminute, Bool.true_or, if_true, String.toList_append, hh, hm, hs]
  by_cases hzero : us % 1000000 = 0
  · simp [hzero]
  · simp [hzero, hf]

/-- Whole minutes are written without seconds. -/
theorem clockText_minutes {k : ℕ} (h : k < 1440) :
    (clockText false (60000000 * k)).toList = Iso.digits 2 (k / 60) ++ ':' :: Iso.digits 2 (k % 60) := by
  have hhour : (60000000 * (k : ℤ) / 1000000 / 3600).toNat = k / 60 := by omega
  have hminute : (60000000 * (k : ℤ) / 1000000 / 60 % 60).toNat = k % 60 := by omega
  have hsecond : 60000000 * (k : ℤ) / 1000000 % 60 = 0 := by omega
  have hmicro : 60000000 * (k : ℤ) % 1000000 = 0 := by omega
  have hh : (padDigits 10 2 (k / 60)).toList = Iso.digits 2 (k / 60) :=
    toList_padDigits_digits (by omega)
  have hm : (padDigits 10 2 (k % 60)).toList = Iso.digits 2 (k % 60) :=
    toList_padDigits_digits (by omega)
  unfold clockText
  simp only [hhour, hminute, hsecond, hmicro, String.toList_append, hh, hm]
  simp

/-- An offset of whole minutes is written as the format has it. -/
theorem offset_iso {m : ℤ} (h : |m| < 1440) : ((if 60000000 * m < 0 then "-" else "+") ++
    clockText false (60000000 * m).natAbs).toList = Iso.offsetText m := by
  rw [abs_lt] at h
  have habs : ((60000000 * m).natAbs : ℤ) = 60000000 * (m.natAbs : ℤ) := by omega
  rw [habs, String.toList_append, clockText_minutes (by omega), Iso.offsetText]
  by_cases hneg : m < 0
  · rw [if_pos (by omega), if_pos hneg]
    rfl
  · rw [if_neg (by omega), if_neg hneg]
    rfl

/-- The years a watermark can fall in, whatever its zone. -/
theorem year_range {n : ℤ} (h0 : -1 ≤ n) (h : n < 120531) :
    1 ≤ (Date.ofNumber n).year ∧ (Date.ofNumber n).year < 10000 := by
  have h1970 : ¬ (Date.ofNumber n).year < 1969 := by
    rw [year_lt_iff, show (newYear 1969).number = -365 from rfl]
    omega
  have h2301 : (Date.ofNumber n).year < 2301 := by
    rw [year_lt_iff, show (newYear 2301).number = 120895 from rfl]
    omega
  omega

/-- **What stands in the filter is an ISO 8601 text**, of the reading with its offset. -/
theorem filterTs_text {t : DateTime} {s : Iso.Stamp} (hwall : s.wall = t.wall)
    (hoffset : t.utcoffset.getD 0 = 60000000 * s.offset) (h0 : 1 ≤ s.date.year) (h : s.date.year < 10000) :
    (filterTs t).toList = s.text := by
  obtain ⟨wall, utcoffset⟩ := t
  obtain rfl : s.wall = wall := hwall
  obtain ⟨⟨hm1, hm12⟩, hd1, hd31⟩ := s.date.valid.range
  have hyear : (padDigits 10 4 s.date.year.toNat).toList = Iso.digits 4 s.date.year.toNat :=
    toList_padDigits_digits (by omega)
  have hmonth := toList_two (n := s.date.month) (by omega) (by omega)
  have hday := toList_two (n := s.date.day) (by omega) (by omega)
  have hclock : (clockText true (s.wall % 86400000000)).toList =
      Iso.clockText (s.wall % 86400000000) := clockText_iso (by omega) (by omega)
  have hcivil : civil (s.wall / 86400000000) = (s.date.year, s.date.month, s.date.day) := civil_eq _
  have hlocal : ∀ zone : String, (padDigits 10 4 s.date.year.toNat ++ "-" ++
      padDigits 10 2 s.date.month.toNat ++ "-" ++ padDigits 10 2 s.date.day.toNat ++ "T" ++
        clockText true (s.wall % 86400000000) ++ zone).toList =
      Iso.dateText s.date ++ 'T' :: (Iso.clockText (s.wall % 86400000000) ++ zone.toList) := by
    intro zone
    simp [Iso.dateText, hyear, hmonth, hday, hclock]
  unfold filterTs DateTime.isoformat
  simp only [hcivil]
  cases utcoffset with
  | none =>
    have hzero : s.offset = 0 := by rw [Option.getD_none] at hoffset; omega
    rw [Option.isNone_none, if_pos rfl, String.append_empty, hlocal, Iso.Stamp.text, hzero]
    rfl
  | some o =>
    obtain rfl : o = 60000000 * s.offset := hoffset
    rw [Option.isNone_some, if_neg (by decide), hlocal, offset_iso s.bounded, Iso.Stamp.text]

/-! ## The scan -/

theorem apostrophe_notMem_text (s : Iso.Stamp) : apostrophe ∉ s.text := by
  have hdigits : ∀ w n, apostrophe ∉ Iso.digits w n := by
    intro w n h
    exact absurd (Iso.isDigit_digits h) (by decide)
  have hdash : apostrophe ≠ '-' := by decide
  have hcolon : apostrophe ≠ ':' := by decide
  have hclock : apostrophe ∉ Iso.clockText (s.wall % 86400000000) := by
    have hdot : apostrophe ≠ '.' := by decide
    unfold Iso.clockText
    split <;> simp [hdigits, hcolon, hdot]
  have hoffset : apostrophe ∉ Iso.offsetText s.offset := by
    have hplus : apostrophe ≠ '+' := by decide
    unfold Iso.offsetText
    split <;> simp [hdigits, hcolon, hdash, hplus]
  have hT : apostrophe ≠ 'T' := by decide
  simp [Iso.Stamp.text, Iso.dateText, hdigits, hdash, hT, hclock, hoffset]

/-- The literal stands between the apostrophes. -/
theorem comparand_rowFilter {t : DateTime} (h : apostrophe ∉ (filterTs t).toList) :
    comparand (rowFilter t) = some (filterTs t).toList := by
  set ts := (filterTs t).toList
  have htext : (rowFilter t).toList =
      ("ingest_ts > ".toList ++ [apostrophe]) ++ (ts ++ [apostrophe]) := by
    simp [rowFilter, ts]
  have hts : ∀ c ∈ ts, decide (c ≠ apostrophe) = true := by
    intro c hc
    rw [decide_eq_true_iff]
    rintro rfl
    exact h hc
  have hdrop : (ts ++ [apostrophe]).dropWhile (· ≠ apostrophe) = [apostrophe] := by
    rw [List.dropWhile_append_of_pos hts, List.dropWhile_cons_of_neg (by simp)]
  have htake : (ts ++ [apostrophe]).takeWhile (· ≠ apostrophe) = ts := by
    rw [List.takeWhile_append_of_pos hts, List.takeWhile_cons_of_neg (by simp), List.append_nil]
  unfold comparand
  simp only [htext]
  rw [if_pos (List.isPrefixOf_iff_prefix.2 (List.prefix_append _ _)), List.drop_left, if_pos hdrop,
    htake]

/-- What the driver returns is a wall clock reading of the instant. -/
theorem ClickHouse.stamp (C : ClickHouse) {us : ℤ} (h0 : 0 < us) (h : us < dateTime64End) :
    ∃ s : Iso.Stamp, s.wall = (C.datetime us).wall ∧
      (C.datetime us).utcoffset.getD 0 = 60000000 * s.offset ∧ s.instant = us := by
  have hinstant := C.instant us h0 h
  cases ho : (C.datetime us).utcoffset with
  | none =>
    refine ⟨⟨(C.datetime us).wall, 0, by decide⟩, rfl, rfl, ?_⟩
    rw [ho] at hinstant
    exact hinstant
  | some o =>
    obtain ⟨m, hm, rfl⟩ := C.minutes us o h0 h ho
    refine ⟨⟨(C.datetime us).wall, m, hm⟩, rfl, rfl, ?_⟩
    rw [ho] at hinstant
    exact hinstant

variable {Row : Type} [KafkaRow Row] {bronze landing : List Row}

/-- **The filter is read as the watermark.** -/
theorem scan_rowFilter (C : ClickHouse) (I : Iceberg) {us : ℤ} (h0 : 0 < us) (h : us < dateTime64End)
    (table : List Row) :
    I.scan table (rowFilter (C.datetime us)) = some (table.filter fun r => us < ingestTs r) := by
  obtain ⟨s, hwall, hoffset, hinstant⟩ := C.stamp h0 h
  obtain ⟨hy1, hy⟩ : 1 ≤ s.date.year ∧ s.date.year < 10000 := by
    have hbounded := abs_lt.1 s.bounded
    unfold Iso.Stamp.instant at hinstant
    unfold dateTime64End at h
    exact year_range (by omega) (by omega)
  have htext := filterTs_text hwall hoffset hy1 hy
  have hliteral := comparand_rowFilter (htext ▸ apostrophe_notMem_text s)
  have hread := I.iso s hy1 hy
  rw [Iceberg.scan, hliteral, htext]
  simp only [Option.bind_eq_bind, Option.bind_some, hread, hinstant]
  rfl

/-- **The scan is above the watermark**, as long as the rows landed are stamped in the range of the
column. -/
theorem filtered_eq (C : ClickHouse) (I : Iceberg)
    (h : ∀ r ∈ landing, 0 < ingestTs r ∧ ingestTs r < dateTime64End) :
    filtered C I bronze landing = some (scanned bronze (watermark landing)) := by
  unfold filtered
  cases hw : watermark landing with
  | none => rfl
  | some us =>
    rw [watermark_eq_max] at hw
    obtain ⟨r, hr, rfl⟩ := List.mem_map.1 (List.max?_mem hw)
    exact scan_rowFilter C I (h r hr).1 (h r hr).2 bronze

/-! ## The pipeline -/

variable {Stg Datum : Type} [StgRow Stg]

namespace Warehouse

variable {V : Vertical Row Stg} {P P' : Row → Prop} {Q : MartRow → Prop} {w : Warehouse Row Stg}

theorem Of.mono (h : w.Of V P Q) (hP : ∀ r, P r → P' r) : w.Of V P' Q where
  bronze := fun r hr => hP r (h.bronze r hr)
  copied := fun r hr => hP r (h.copied r hr)
  staging := by
    intro t ht s hs
    obtain ⟨r, hr, hrow⟩ := h.staging t ht s hs
    exact ⟨r, hP r hr, hrow⟩
  mart := h.mart

end Warehouse

namespace Pipeline

variable {D : Deployment Row Stg Datum} {p : Pipeline Row Stg}

/-- Every row is stamped no later than the clock. -/
def Stamped (D : Deployment Row Stg Datum) (p : Pipeline Row Stg) : Prop :=
  p.Holds D.lane.vertical (fun r => ingestTs r ≤ p.clock) fun _ => True

theorem stamped_init (stored : Option ℤ) : (init D stored).Stamped D where
  runs := by simp [init]
  tables := Warehouse.of_init

variable [DecidableEq Row] [DecidableEq Stg]

theorem stamped_step (h : p.Stamped D) (a : Act Row Stg) : (p.step D a).Stamped D := by
  have hclock := clock_le_step D p a
  have hmono : p.Holds D.lane.vertical (fun r => ingestTs r ≤ (p.step D a).clock) fun _ => True :=
    ⟨fun i r hr row hrow => (h.runs i r hr row hrow).trans hclock,
      h.tables.mono fun r hr => hr.trans hclock⟩
  refine hmono.step a ?_ (fun _ _ _ _ _ => trivial)
  intro i registry part o value now ts now' _ _ _ hts row hdec
  rw [ingestTs, D.archiver.place hdec, hts]

/-- A step of the pipeline whose landing runs scan by the text of their filter. -/
def filterStep (D : Deployment Row Stg Datum) (C : ClickHouse) (I : Iceberg) (p : Pipeline Row Stg) :
    Act Row Stg → Pipeline Row Stg
  | .table (.store (.land a)) => { p with
      tables := { p.tables with store := p.tables.store.filterLand C I D.landing a } }
  | a => p.step D a

/-- Where the rows landed are stamped in the range of the column, a step is the same. -/
theorem filterStep_eq (C : ClickHouse) (I : Iceberg) (hs : p.Sourced D) (ht : p.Stamped D)
    (hclock : p.clock < dateTime64End) (a : Act Row Stg) : p.filterStep D C I a = p.step D a := by
  have hrange : ∀ r ∈ p.tables.store.landing, 0 < ingestTs r ∧ ingestTs r < dateTime64End := by
    intro r hr
    have hcopied : r ∈ p.tables.store.copied := List.mem_append_left _ hr
    exact ⟨(hs.tables.copied r hcopied).1, (ht.tables.copied r hcopied).trans_lt hclock⟩
  have hland : ∀ a, p.tables.store.filterLand C I D.landing a = p.tables.store.land D.landing a := by
    intro a
    cases a with
    | begin arrow => simp only [Store.filterLand, Store.land, filtered_eq C I hrange]
    | insert i => rfl
    | finish i => rfl
  cases a with
  | table a =>
    cases a with
    | store a =>
      cases a with
      | land a =>
        rw [filterStep, hland]
        rfl
      | append rows => rfl
      | die i => rfl
    | stage | mart | mergeStaging | mergeMart => rfl
  | service | broker | start | archive | crash => rfl

end Pipeline

/-- **The watermark survives its text.** Whatever happens to the pipeline up to the end of 2299, and
whatever zones the driver chooses for the datetimes it returns, one whose landing runs write the watermark
into the filter of their scan is where one is whose scans compare the stamps themselves. -/
theorem filter_run [DecidableEq Row] [DecidableEq Stg] (D : Deployment Row Stg Datum)
    (C : ClickHouse) (I : Iceberg) (stored : Option ℤ) (as : List (Pipeline.Act Row Stg))
    (hclock : (Trace.run (Pipeline.step D) (.init D stored) as).clock < dateTime64End) :
    Trace.run (Pipeline.filterStep D C I) (.init D stored) as =
      Trace.run (Pipeline.step D) (.init D stored) as := by
  -- the clock does not go back, so it was in the range all along
  have hrange : Trace.Along (Pipeline.step D) (fun p _ => p.clock < dateTime64End)
      (.init D stored) as :=
    Trace.along_of_persist (I := fun _ => True) (B := fun p => dateTime64End ≤ p.clock)
      (fun _ _ _ _ => trivial)
      (fun p a _ hno => (not_lt.1 hno).trans (Pipeline.clock_le_step D p a))
      (fun p a hle => hle.trans (Pipeline.clock_le_step D p a)) trivial (not_le.2 hclock)
  exact Trace.run_congr_along (I := fun p => p.Sourced D ∧ p.Stamped D)
    (fun p a hok h => Pipeline.filterStep_eq C I h.1 h.2 hok a)
    (fun p a _ h => ⟨Pipeline.sourced_step h.1 a, Pipeline.stamped_step h.2 a⟩)
    ⟨Pipeline.sourced_init stored, Pipeline.stamped_init stored⟩ hrange

/-- A driver that returns datetimes in UTC without saying so. -/
def naiveDriver : ClickHouse where
  datetime us := ⟨us, none⟩
  instant us _ _ := by simp
  minutes us o _ _ h := by cases h

/-- A driver that returns the local time two hours ahead of UTC. -/
def zonedDriver : ClickHouse where
  datetime us := ⟨us + 7200000000, some 7200000000⟩
  instant us _ _ := by simp
  minutes us o _ _ h := ⟨120, by decide, (Option.some.inj h).symm⟩

/-- A reader of ISO 8601 texts and of nothing else. -/
def isoReader : Iceberg where
  literal := Iso.read
  iso s h1 h := Iso.read_text (by omega) h

example : filterTs (naiveDriver.datetime 1704067200000001) = "2024-01-01T00:00:00.000001+00:00" ∧
    filterTs (zonedDriver.datetime 1704067200000000) = "2024-01-01T02:00:00+02:00" := by decide

/-- The second record is archived again, in 2024. -/
def archivedAgain : List (Pipeline.Act BronzeRow StgPost) :=
  [.start 1 0 0, .archive 1 true (.poll (messageAt 1 oneFrame) 0 1704067200000001 0),
    .archive 1 true (.poll none 5000000000 1704067200000001 0), .archive 1 true (.go 0 []),
    .archive 1 true (.go 0 [])]

/-- A landing run of what was archived, and another scan that would find it again. -/
def landedAgain : List (Pipeline.Act BronzeRow StgPost) :=
  [.table (.store (.land (.begin [oneRow 1 1704067200000001]))), .table (.store (.land (.insert 0))),
    .table (.store (.land (.finish 0))), .table (.store (.land (.begin [oneRow 1 1704067200000001])))]

theorem filter_run_again :
    (Trace.run (Pipeline.filterStep oneDeployment zonedDriver isoReader)
      (.init oneDeployment (some 5))
      (producedTwice ++ archivedAgain ++ landedAgain)).tables.store.landing =
    [oneRow 1 2, oneRow 0 1, oneRow 1 1704067200000001] := by
  rw [filter_run oneDeployment zonedDriver isoReader (some 5)
    (producedTwice ++ archivedAgain ++ landedAgain) (by decide)]
  decide

end BlueskyTrends
