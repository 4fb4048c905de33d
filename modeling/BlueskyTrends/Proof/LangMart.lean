import BlueskyTrends.Proof.Archived
import BlueskyTrends.Proof.Marts

/-!
# What the language mart counts

`count()` runs after the array of a post's tags is expanded: a post is counted once for each time it declares a
tag.

* `length_tagged`: the records of a group are counted with their repetitions.
* `lang_posts_iff`: a row counts posts exactly if none of its day declares its tag twice; it always counts authors.
-/

namespace BlueskyTrends

open Replacing

variable {dates : Dates} {day : ℕ} {lang : String} {rows staging : List StgPost} {s : StgPost}

/-- The post declares the language, or none at all where it is `und`. -/
def StgPost.Declares (s : StgPost) (lang : String) : Prop := lang ∈ s.langs ∨ lang = "und" ∧ s.langs = []

instance (s : StgPost) (lang : String) : Decidable (s.Declares lang) :=
  inferInstanceAs (Decidable (lang ∈ s.langs ∨ lang = "und" ∧ s.langs = []))

/-- The posts created on a day that declare a language. -/
def declaring (dates : Dates) (day : ℕ) (lang : String) (rows : List StgPost) : List StgPost :=
  rows.filter fun s => dayOf dates s = day ∧ s.Declares lang

theorem mem_groups_iff : lang ∈ posts.groups s ↔ s.Declares lang := by
  cases hl : s.langs with
  | nil => simp [posts, StgPost.Declares, hl]
  | cons l ls => simp [posts, StgPost.Declares, hl]

/-- A post counts for a group as often as it declares it; one without a tag counts once. -/
theorem count_groups_le_one : (posts.groups s).count lang ≤ 1 ↔ s.langs.count lang ≤ 1 := by
  cases hl : s.langs with
  | nil =>
    have hund : (["und"] : List String).count lang ≤ 1 := List.count_le_length
    simp [posts, hl, hund]
  | cons l ls => simp [posts, hl]

/-- The records that one post adds to a group. -/
theorem length_tagged_cons (s : StgPost) (rows : List StgPost) :
    ((counted dates posts.groups (s :: rows)).filter fun x => x.1 = (day, lang)).length =
      (if dayOf dates s = day then (posts.groups s).count lang else 0) +
        ((counted dates posts.groups rows).filter fun x => x.1 = (day, lang)).length := by
  have hone : (((posts.groups s).map fun g => ((dayOf dates s, g), (StgRow.base s).did)).filter
      fun x => x.1 = (day, lang)).length = if dayOf dates s = day then (posts.groups s).count lang else 0 := by
    rw [← List.countP_eq_length_filter, List.countP_map]
    by_cases hd : dayOf dates s = day
    · rw [if_pos hd, List.count]
      refine List.countP_congr fun g _ => ?_
      simp [hd]
    · simp [hd]
  rw [counted, List.flatMap_cons, List.filter_append, List.length_append, hone]
  rfl

variable (dates day lang) in
/-- **The records of a group** are at least the posts that declare it, and as many exactly if none declares it
twice. -/
theorem length_tagged (rows : List StgPost) :
    (declaring dates day lang rows).length ≤
        ((counted dates posts.groups rows).filter fun x => x.1 = (day, lang)).length ∧
      (((counted dates posts.groups rows).filter fun x => x.1 = (day, lang)).length =
        (declaring dates day lang rows).length ↔
          ∀ s ∈ rows, dayOf dates s = day → (posts.groups s).count lang ≤ 1) := by
  -- along the posts: each adds at least 1 where it declares the language
  induction rows with
  | nil => simp [counted, declaring]
  | cons s rows ih =>
    obtain ⟨hle, heq⟩ := ih
    rw [length_tagged_cons, declaring, List.filter_cons]
    by_cases hd : dayOf dates s = day
    · by_cases hdecl : s.Declares lang
      · have hpos : 0 < (posts.groups s).count lang := List.count_pos_iff.2 (mem_groups_iff.2 hdecl)
        simp only [hd, hdecl, and_self, decide_true, if_true, List.length_cons, List.forall_mem_cons, forall_const,
          ← heq]
        rw [declaring] at hle ⊢
        omega
      · have hzero : (posts.groups s).count lang = 0 :=
          List.count_eq_zero_of_not_mem fun hm => hdecl (mem_groups_iff.1 hm)
        simp only [hd, hdecl, hzero, and_false, decide_false, if_true, List.forall_mem_cons, ← heq]
        rw [declaring] at hle ⊢
        simpa using hle
    · simp only [hd, false_and, decide_false, if_false, List.forall_mem_cons, ← heq]
      rw [declaring] at hle ⊢
      simpa using hle

/-- The authors of a group are those of the posts that declare it. -/
theorem mem_authors {did : String} : did ∈ ((counted dates posts.groups rows).filter fun x => x.1 = (day, lang)).map
    Prod.snd ↔ did ∈ (declaring dates day lang rows).map (·.did) := by
  constructor
  · intro h
    obtain ⟨x, hx, rfl⟩ := List.mem_map.1 h
    obtain ⟨hx, hkey⟩ := List.mem_filter.1 hx
    obtain ⟨s, hs, hd, hg, hdid⟩ := mem_counted.1 hx
    rw [decide_eq_true_iff] at hkey
    rw [hkey] at hd hg
    have hdecl : s ∈ declaring dates day lang rows :=
      List.mem_filter.2 ⟨hs, by simpa using ⟨hd, mem_groups_iff.1 hg⟩⟩
    exact List.mem_map.2 ⟨s, hdecl, hdid⟩
  · intro h
    obtain ⟨s, hs, rfl⟩ := List.mem_map.1 h
    obtain ⟨hs, hdecl⟩ := List.mem_filter.1 hs
    rw [decide_eq_true_iff] at hdecl
    have hx : ((day, lang), s.did) ∈ counted dates posts.groups rows :=
      mem_counted.2 ⟨s, hs, hdecl.1, mem_groups_iff.2 hdecl.2, rfl⟩
    exact List.mem_map.2 ⟨_, List.mem_filter.2 ⟨hx, by simp⟩, rfl⟩

/-- The posts of staging have distinct keys. -/
theorem dedup_declaring : ((declaring dates day lang (stgFinal staging)).map stgKey).dedup.length =
    (declaring dates day lang (stgFinal staging)).length := by
  have hkeys : ((stgFinal staging).map stgKey).Nodup := nodup_final
  have hnodup : ((declaring dates day lang (stgFinal staging)).map stgKey).Nodup :=
    hkeys.sublist (List.filter_sublist.map _)
  rw [hnodup.dedup, List.length_map]

/-- A run of the mart inserts rows of the aggregate of staging. -/
theorem mem_aggregate_of_run {V : Vertical BronzeRow StgPost} {this : Option (List MartRow)} {y : MartRow}
    (hy : y ∈ V.reaggregated dates staging this) : y ∈ aggregate dates V.groups (stgFinal staging) := by
  cases this with
  | none => exact hy
  | some this => exact (mem_reaggregated.1 hy).1

/-- **A row of the language mart counts posts exactly if none of its day repeats its tag.** Its `authors` are always
the distinct authors of the posts of staging that declare the language on the day, and at most its `posts`; these are
the distinct posts exactly if no post of the day declares the language twice. -/
theorem lang_posts_iff (dates : Dates) (staging : List StgPost) (this : Option (List MartRow)) (y : MartRow)
    (hy : y ∈ martPostsByLangDaily dates staging this) :
    y.authors = ((declaring dates y.day y.group (stgFinal staging)).map (·.did)).dedup.length ∧
      y.authors ≤ y.count ∧
      (y.count = ((declaring dates y.day y.group (stgFinal staging)).map stgKey).dedup.length ↔
        ∀ s ∈ stgFinal staging, dayOf dates s = y.day → s.langs.count y.group ≤ 1) := by
  have hrow : y = groupRow (counted dates posts.groups (stgFinal staging)) (y.day, y.group) :=
    (mem_aggregate.1 (mem_aggregate_of_run hy)).2
  set dids := ((counted dates posts.groups (stgFinal staging)).filter fun x => x.1 = (y.day, y.group)).map Prod.snd
  have hcount : y.count = dids.length := congrArg MartRow.count hrow
  have hauthors : y.authors = dids.dedup.length := congrArg MartRow.authors hrow
  refine ⟨?_, ?_, ?_⟩
  · have hperm : dids.dedup.Perm ((declaring dates y.day y.group (stgFinal staging)).map (·.did)).dedup := by
      refine (List.perm_ext_iff_of_nodup (List.nodup_dedup _) (List.nodup_dedup _)).2 fun did => ?_
      rw [List.mem_dedup, List.mem_dedup]
      exact mem_authors
    rw [hauthors, hperm.length_eq]
  · rw [hauthors, hcount]
    exact (List.dedup_sublist dids).length_le
  · have htagged := (length_tagged dates y.day y.group (stgFinal staging)).2
    rw [hcount, dedup_declaring, List.length_map, htagged]
    simp only [count_groups_le_one]

theorem lang_posts_iff_untagged :
    ⟨100, "und", 1, 1⟩ ∈ martPostsByLangDaily (.integer utcDay) [posts.select (taggedPost "a" 100 [] 1)] none ∧
      ((declaring (.integer utcDay) 100 "und" (stgFinal [posts.select (taggedPost "a" 100 [] 1)])).map
        stgKey).dedup.length = 1 := by
  have hrow : ⟨100, "und", 1, 1⟩ ∈
      martPostsByLangDaily (.integer utcDay) [posts.select (taggedPost "a" 100 [] 1)] none := by
    decide
  obtain ⟨-, -, hcount⟩ := lang_posts_iff (.integer utcDay) [posts.select (taggedPost "a" 100 [] 1)] none
    ⟨100, "und", 1, 1⟩ hrow
  exact ⟨hrow, (hcount.2 (by decide)).symm⟩

/-- A post with a repeated tag, and what ingest makes of it. -/
def repeatedPost : Val := .dict [("did", .str "did:plc:author123"), ("time_us", .int 10), ("kind", .str "commit"),
  ("commit", .dict [("operation", .str "create"), ("collection", .str "app.bsky.feed.post"),
    ("rkey", .str "3kpostrkey"), ("cid", .str "bafypost"),
    ("record", .dict [("createdAt", .str "2024-01-01T00:00:00.000Z"), ("text", .str "one"),
      ("langs", .list [.str "en", .str "en"])])])]

def repeatedModel : Event :=
  .post ⟨⟨"did:plc:author123", "3kpostrkey", "bafypost", ⟨1704067200000000, some 0⟩⟩, "one", some ["en", "en"], none,
    none⟩

/-- **One post is counted twice**: accepted, archived, staged and aggregated with its tag repeated. -/
theorem repeated_tag_counted_twice : toModel asciiHost repeatedPost = .ok repeatedModel ∧ ∃ row,
    archive AvroDatum.codec (.fixed 0 (by decide)) asciiHost repeatedModel ⟨0, 0, 0⟩ = some (.ok (.post row)) ∧
    martPostsByLangDaily (.integer utcDay) [posts.select row] none = [⟨19723, "en", 2, 1⟩] ∧
    ((declaring (.integer utcDay) 19723 "en" (stgFinal [posts.select row])).map stgKey).dedup.length = 1 :=
  ⟨rfl, _, rfl, by decide, by decide⟩

end BlueskyTrends
