import BlueskyTrends.Landing.Load
import BlueskyTrends.Lib.Replacing

/-!
# The dbt models

`stg_posts`, `stg_likes` and `stg_follows` select the rows newly landed; `mart_posts_by_lang_daily`,
`mart_likes_by_subject_daily` and `mart_follows_by_subject_daily` count the records of staging by day and
group. A model is what its run inserts into its own table, `this`: `none` before the first run, which
builds the table. Both kinds of table are replacing ones and are read with `FINAL`.

* `mem_aggregate`: the rows of a `GROUP BY`.
-/

namespace BlueskyTrends

open HighWater Replacing

/-! ## Staging -/

/-- A datetime in a UTC column, in microseconds: Arrow takes a naive one to be UTC. -/
def DateTime.utcMicros (t : DateTime) : ℤ := t.wall - t.utcoffset.getD 0

/-- The columns the staging models share. Timestamps are in microseconds. -/
structure StgBase where
  did : String
  rkey : String
  cid : String
  createdAt : ℤ
  ingestTs : ℤ
  deriving DecidableEq

structure StgPost extends StgBase where
  text : String
  langs : List String
  replyParent : Option String
  replyRoot : Option String
  deriving DecidableEq

structure StgLike extends StgBase where
  subjectUri : String
  subjectCid : String
  deriving DecidableEq

structure StgFollow extends StgBase where
  subjectDid : String
  deriving DecidableEq

/-- A row of a staging table. -/
class StgRow (Stg : Type) where
  base : Stg → StgBase

instance : StgRow StgPost := ⟨StgPost.toStgBase⟩
instance : StgRow StgLike := ⟨StgLike.toStgBase⟩
instance : StgRow StgFollow := ⟨StgFollow.toStgBase⟩

/-- `order_by='(did, rkey)'`. -/
def stgKey {Stg : Type} [StgRow Stg] (s : Stg) : String × String := ((StgRow.base s).did, (StgRow.base s).rkey)

/-- `ReplacingMergeTree(ingest_ts)`. -/
def stgTs {Stg : Type} [StgRow Stg] (s : Stg) : ℤ := (StgRow.base s).ingestTs

/-- The staging row has the identity fields of the landed record. -/
def StgBase.Copies (s : StgBase) (did rkey cid : String) (createdAt : DateTime) (ingestTs : ℤ) : Prop :=
  s.did = did ∧ s.rkey = rkey ∧ s.cid = cid ∧ s.createdAt = createdAt.utcMicros ∧ s.ingestTs = ingestTs

/-- The staging row has the columns of the landed post. -/
def StgPost.Copies (s : StgPost) (r : BronzeRow) : Prop :=
  s.toStgBase.Copies r.did r.rkey r.cid r.createdAt r.ingestTs ∧ s.text = r.text ∧ s.langs = r.langs ∧
    s.replyParent = r.replyParent ∧ s.replyRoot = r.replyRoot

/-- The staging row has the columns of the landed like. -/
def StgLike.Copies (s : StgLike) (r : LikeRow) : Prop :=
  s.toStgBase.Copies r.did r.rkey r.cid r.createdAt r.ingestTs ∧ s.subjectUri = r.subjectUri ∧
    s.subjectCid = r.subjectCid

/-- The staging row has the columns of the landed follow. -/
def StgFollow.Copies (s : StgFollow) (r : FollowRow) : Prop :=
  s.toStgBase.Copies r.did r.rkey r.cid r.createdAt r.ingestTs ∧ s.subjectDid = r.subjectDid

/-- What the models of the three event types differ in: the identity and the columns of a landed record,
which staging selects, and what a record counts for in the mart. -/
structure Vertical (Row Stg : Type) [KafkaRow Row] [StgRow Stg] where
  key : Row → String × String
  Copies : Stg → Row → Prop
  select : Row → Stg
  groups : Stg → List String
  keyed : ∀ r, stgKey (select r) = key r
  copies : ∀ r, Copies (select r) r
  stamp : ∀ r, stgTs (select r) = ingestTs r
  nonempty : ∀ s, groups s ≠ []

/-- `stg_posts`, and `arrayJoin(if(empty(langs), ['und'], langs))`. -/
def posts : Vertical BronzeRow StgPost where
  key r := (r.did, r.rkey)
  Copies := StgPost.Copies
  select r := {
    did := r.did
    rkey := r.rkey
    cid := r.cid
    createdAt := r.createdAt.utcMicros
    text := r.text
    langs := r.langs
    replyParent := r.replyParent
    replyRoot := r.replyRoot
    ingestTs := r.ingestTs }
  groups s := if s.langs.isEmpty then ["und"] else s.langs
  keyed _ := rfl
  copies _ := by simp [StgPost.Copies, StgBase.Copies]
  stamp _ := rfl
  nonempty s := by
    split
    · simp
    · rename_i h
      simpa using h

/-- `stg_likes`, and `subject_uri`. -/
def likes : Vertical LikeRow StgLike where
  key r := (r.did, r.rkey)
  Copies := StgLike.Copies
  select r := {
    did := r.did
    rkey := r.rkey
    cid := r.cid
    createdAt := r.createdAt.utcMicros
    subjectUri := r.subjectUri
    subjectCid := r.subjectCid
    ingestTs := r.ingestTs }
  groups s := [s.subjectUri]
  keyed _ := rfl
  copies _ := by simp [StgLike.Copies, StgBase.Copies]
  stamp _ := rfl
  nonempty _ := by simp

/-- `stg_follows`, and `subject_did`. -/
def follows : Vertical FollowRow StgFollow where
  key r := (r.did, r.rkey)
  Copies := StgFollow.Copies
  select r := {
    did := r.did
    rkey := r.rkey
    cid := r.cid
    createdAt := r.createdAt.utcMicros
    subjectDid := r.subjectDid
    ingestTs := r.ingestTs }
  groups s := [s.subjectDid]
  keyed _ := rfl
  copies _ := by simp [StgFollow.Copies, StgBase.Copies]
  stamp _ := rfl
  nonempty _ := by simp

variable {Row Stg : Type} [KafkaRow Row] [StgRow Stg]

/-- The greatest `ingest_ts` staged, over an empty table the epoch. -/
def maxStgTs (this : List Stg) : ℤ := greatest 0 (this.map stgTs)

/-- The rows a run of a staging model selects from the landing table. -/
def Vertical.newlyLanded (V : Vertical Row Stg) (landing : List Row) : Option (List Stg) → List Stg
  | none => landing.map V.select
  | some this => (landing.map V.select).filter fun s => maxStgTs this < stgTs s

/-- `stg_posts`. -/
def stgPosts : List BronzeRow → Option (List StgPost) → List StgPost := posts.newlyLanded

/-- `stg_likes`. -/
def stgLikes : List LikeRow → Option (List StgLike) → List StgLike := likes.newlyLanded

/-- `stg_follows`. -/
def stgFollows : List FollowRow → Option (List StgFollow) → List StgFollow := follows.newlyLanded

/-- A staging table `final`. -/
def stgFinal (staging : List Stg) : List Stg := final stgKey stgTs staging

/-! ## Marts -/

/-- ClickHouse's `Date`, a number of days from 1970-01-01: `toDate` of a timestamp, and a date minus a
number of days. -/
structure Dates where
  toDate : ℤ → ℕ
  minus : ℕ → ℕ → ℤ

/-- Dates that do not wrap. -/
def Dates.integer (toDate : ℤ → ℕ) : Dates := ⟨toDate, fun day n => day - n⟩

/-- The day of a timestamp in UTC, as a 16-bit number. -/
def utcDay (micros : ℤ) : ℕ := (micros / 86400000000 % 65536).toNat

/-- A row of a mart: `posts` and `authors` of `lang`, `likes` and `likers` of `subject_uri`, `follows` and
`followers` of `subject_did`. -/
structure MartRow where
  day : ℕ
  group : String
  count : ℕ
  authors : ℕ
  deriving DecidableEq

/-- `order_by='(day, …)'`. -/
def MartRow.key (y : MartRow) : ℕ × String := (y.day, y.group)

def dayOf (dates : Dates) (s : Stg) : ℕ := dates.toDate (StgRow.base s).createdAt

/-- What is grouped: each record once for each group it counts for, with its `did`. -/
def counted (dates : Dates) (groups : Stg → List String) (rows : List Stg) : List ((ℕ × String) × String) :=
  rows.flatMap fun s => (groups s).map fun g => ((dayOf dates s, g), (StgRow.base s).did)

/-- The row of a group: `count()` and `uniqExact(did)`. -/
def groupRow (records : List ((ℕ × String) × String)) (k : ℕ × String) : MartRow :=
  let dids := (records.filter fun x => x.1 = k).map Prod.snd
  ⟨k.1, k.2, dids.length, dids.dedup.length⟩

/-- The `GROUP BY`. -/
def aggregate (dates : Dates) (groups : Stg → List String) (rows : List Stg) : List MartRow :=
  let records := counted dates groups rows
  (records.map Prod.fst).dedup.map (groupRow records)

section

variable {dates : Dates} {groups : Stg → List String} {rows rows' : List Stg} {k : ℕ × String} {y : MartRow}

theorem mem_counted {x : (ℕ × String) × String} : x ∈ counted dates groups rows ↔
    ∃ s ∈ rows, dayOf dates s = x.1.1 ∧ x.1.2 ∈ groups s ∧ (StgRow.base s).did = x.2 := by
  unfold counted
  simp only [List.mem_flatMap, List.mem_map]
  constructor
  · rintro ⟨s, hs, g, hg, rfl⟩
    exact ⟨s, hs, rfl, hg, rfl⟩
  · rintro ⟨s, hs, hd, hg, ha⟩
    exact ⟨s, hs, x.1.2, hg, by rw [hd, ha]⟩

theorem map_key_aggregate :
    (aggregate dates groups rows).map MartRow.key = ((counted dates groups rows).map Prod.fst).dedup := by
  unfold aggregate
  rw [List.map_map]
  exact List.map_id _

theorem nodup_aggregate : ((aggregate dates groups rows).map MartRow.key).Nodup := by
  rw [map_key_aggregate]
  exact List.nodup_dedup _

/-- The groups are those of the records. -/
theorem mem_map_key_aggregate : k ∈ (aggregate dates groups rows).map MartRow.key ↔
    ∃ s ∈ rows, dayOf dates s = k.1 ∧ k.2 ∈ groups s := by
  rw [map_key_aggregate, List.mem_dedup, List.mem_map]
  constructor
  · rintro ⟨x, hx, rfl⟩
    obtain ⟨s, hs, hd, hg, -⟩ := mem_counted.1 hx
    exact ⟨s, hs, hd, hg⟩
  · rintro ⟨s, hs, hd, hg⟩
    exact ⟨(k, (StgRow.base s).did), mem_counted.2 ⟨s, hs, hd, hg, rfl⟩, rfl⟩

/-- **The rows of a `GROUP BY`.** -/
theorem mem_aggregate : y ∈ aggregate dates groups rows ↔
    y.key ∈ (aggregate dates groups rows).map MartRow.key ∧
      y = groupRow (counted dates groups rows) y.key := by
  constructor
  · intro hy
    refine ⟨List.mem_map.2 ⟨y, hy, rfl⟩, ?_⟩
    unfold aggregate at hy
    obtain ⟨k, -, rfl⟩ := List.mem_map.1 hy
    rfl
  · rintro ⟨hk, hy⟩
    rw [map_key_aggregate] at hk
    rw [hy]
    exact List.mem_map.2 ⟨y.key, hk, rfl⟩

theorem groupRow_congr {records records' : List ((ℕ × String) × String)}
    (h : (records.filter fun x => x.1 = k).Perm (records'.filter fun x => x.1 = k)) :
    groupRow records k = groupRow records' k := by
  have hdids := h.map Prod.snd
  simp only [groupRow, hdids.length_eq, hdids.dedup.length_eq]

/-- The rows of a `GROUP BY` do not depend on the order of the records. -/
theorem mem_aggregate_perm (h : rows.Perm rows') :
    y ∈ aggregate dates groups rows ↔ y ∈ aggregate dates groups rows' := by
  have hrecords : (counted dates groups rows).Perm (counted dates groups rows') := h.flatMap_right _
  rw [mem_aggregate, mem_aggregate, groupRow_congr (hrecords.filter _), mem_map_key_aggregate,
    mem_map_key_aggregate]
  simp only [h.mem_iff]

theorem counted_filter (p : ℕ → Bool) :
    counted dates groups (rows.filter fun s => p (dayOf dates s)) =
      (counted dates groups rows).filter fun x => p x.1.1 := by
  unfold counted
  induction rows with
  | nil => rfl
  | cons s rows ih =>
    -- the records counted for one row are all of its day
    have hs : ((groups s).map fun g => ((dayOf dates s, g), (StgRow.base s).did)).filter (fun x => p x.1.1) =
        if p (dayOf dates s) then (groups s).map fun g => ((dayOf dates s, g), (StgRow.base s).did)
        else [] := by
      by_cases hp : p (dayOf dates s) <;> simp [hp, List.filter_map, Function.comp_def]
    rw [List.flatMap_cons, List.filter_append, ← ih, List.filter_cons, hs]
    split <;> simp

/-- **Aggregating the records of some days** gives the rows of these days. -/
theorem mem_aggregate_filter (p : ℕ → Bool) :
    y ∈ aggregate dates groups (rows.filter fun s => p (dayOf dates s)) ↔
      y ∈ aggregate dates groups rows ∧ p y.day := by
  have hkey : y.key ∈ (aggregate dates groups (rows.filter fun s => p (dayOf dates s))).map MartRow.key ↔
      y.key ∈ (aggregate dates groups rows).map MartRow.key ∧ p y.day := by
    rw [mem_map_key_aggregate, mem_map_key_aggregate]
    constructor
    · rintro ⟨s, hs, hd, hg⟩
      obtain ⟨hs, hp⟩ := List.mem_filter.1 hs
      exact ⟨⟨s, hs, hd, hg⟩, by rw [← hp, hd]; rfl⟩
    · rintro ⟨⟨s, hs, hd, hg⟩, hp⟩
      have hpd : p (dayOf dates s) = true := by rw [hd]; exact hp
      exact ⟨s, List.mem_filter.2 ⟨hs, hpd⟩, hd, hg⟩
  have hrow (hp : p y.day) : groupRow (counted dates groups (rows.filter fun s => p (dayOf dates s))) y.key =
      groupRow (counted dates groups rows) y.key := by
    refine groupRow_congr ?_
    rw [counted_filter, List.filter_filter]
    refine List.Perm.of_eq (List.filter_congr fun x _ => ?_)
    by_cases hx : x.1 = y.key
    · simp [hx, hp, MartRow.key]
    · simp [hx]
  have hall : y ∈ aggregate dates groups rows ↔ y.key ∈ (aggregate dates groups rows).map MartRow.key ∧
      y = groupRow (counted dates groups rows) y.key := mem_aggregate
  rw [mem_aggregate, hkey, hall, and_assoc, and_assoc]
  refine and_congr_right fun _ => ?_
  rw [and_comm]
  constructor
  · rintro ⟨hy, hp⟩
    exact ⟨hy.trans (hrow hp), hp⟩
  · rintro ⟨hy, hp⟩
    exact ⟨hy.trans (hrow hp).symm, hp⟩

end

/-- The last day of a mart, over an empty one the first. -/
def maxDay (this : List MartRow) : ℕ := greatest 0 (this.map MartRow.day)

/-- The lower bound of the window, `max(day) - 2`. -/
def lowerBound (dates : Dates) (this : List MartRow) : ℤ := dates.minus (maxDay this) 2

/-- The rows of staging that a run of a mart model aggregates. -/
def window (dates : Dates) (staging : List Stg) : Option (List MartRow) → List Stg
  | none => stgFinal staging
  | some this => (stgFinal staging).filter fun s => lowerBound dates this ≤ dayOf dates s

/-- The rows a run of a mart model inserts. -/
def Vertical.reaggregated (V : Vertical Row Stg) (dates : Dates) (staging : List Stg)
    (this : Option (List MartRow)) : List MartRow :=
  aggregate dates V.groups (window dates staging this)

/-- `mart_posts_by_lang_daily`. -/
def martPostsByLangDaily : Dates → List StgPost → Option (List MartRow) → List MartRow := posts.reaggregated

/-- `mart_likes_by_subject_daily`. -/
def martLikesBySubjectDaily : Dates → List StgLike → Option (List MartRow) → List MartRow :=
  likes.reaggregated

/-- `mart_follows_by_subject_daily`. -/
def martFollowsBySubjectDaily : Dates → List StgFollow → Option (List MartRow) → List MartRow :=
  follows.reaggregated

/-- A mart `final`: no version, so the last row inserted. -/
def martFinal (mart : List MartRow) : List MartRow := final MartRow.key (fun _ => ()) mart

end BlueskyTrends
