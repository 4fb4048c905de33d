import BlueskyTrends.Lib.Trace
import BlueskyTrends.Realtime.Posts

/-!
# What the real-time posts show

Blocks are inserted before their offsets are committed, so after a restart records are inserted
again, and parts of a block may be in the table already. `Fed` is what holds of the consumer and its
table in every run.

* `fed_step`: every committed record is inserted, and every inserted row is of a record.
* `posts_dedup_replay`: **whatever is replayed, `posts_dedup` shows each record identity once**, as
  it was inserted last.
* `dashboard_replay`: where a record is written again only as it was, the panels show what they
  would show of every record inserted once.
-/

namespace BlueskyTrends

open Replacing

namespace Realtime

variable {read : Option Bytes → Option QueueRow} {log : KafkaLog} {c₀ : ℤ → ℕ} {s : Realtime} {q : QueueRow}

/-- The rows inserted so far, as they were read. -/
def rows (s : Realtime) : List QueueRow := s.inserted.map MartPost.toQueueRow

/-- A record of the topic is read as `q`. -/
def OnTopic (read : Option Bytes → Option QueueRow) (log : KafkaLog) (q : QueueRow) : Prop :=
  ∃ p o value, log p o = some value ∧ read value = some q

/-- Every record of the topic from `c₀` up to `upTo` is read as one of `rows`. -/
def Holds (read : Option Bytes → Option QueueRow) (log : KafkaLog) (c₀ upTo : ℤ → ℕ) (rows : List QueueRow) : Prop :=
  ∀ p o value, c₀ p ≤ o → o < upTo p → log p o = some value → ∃ q ∈ rows, read value = some q

theorem Holds.mono {upTo : ℤ → ℕ} {l l' : List QueueRow} (h : Holds read log c₀ upTo l) (hl : l ⊆ l') :
    Holds read log c₀ upTo l' := by
  intro p o value hfrom hto hv
  obtain ⟨q, hq, hread⟩ := h p o value hfrom hto hv
  exact ⟨q, hl hq, hread⟩

/-- The consumer takes the next record of a partition. -/
theorem Holds.poll {position : ℤ → ℕ} {l : List QueueRow} {p : ℤ} {o : ℕ} {value : Option Bytes}
    (h : Holds read log c₀ position l) (hd : World.deliverable log position ⟨none, some p, some o, value⟩)
    (hq : read value = some q) (hmem : q ∈ l) : Holds read log c₀ (Function.update position p (o + 1)) l := by
  obtain ⟨-, hlog, hskip⟩ := hd
  intro p' o' value' hfrom hto hv
  by_cases hp : p' = p
  · subst hp
    rw [Function.update_self] at hto
    by_cases hpos : o' < position p'
    · exact h p' o' value' hfrom hpos hv
    · -- from the old position on there is only the record itself
      have ho : ¬ o' < o := fun hlt => by
        rw [hskip o' hlt (not_lt.1 hpos)] at hv
        cases hv
      obtain rfl : o' = o := by omega
      obtain rfl := Option.some.inj (hlog.symm.trans hv)
      exact ⟨q, hmem, hq⟩
  · rw [Function.update_of_ne hp] at hto
    exact h p' o' value' hfrom hto hv

/-- The table is what has been inserted, superseded rows dropped. What has been read since the last
commit is in the block or inserted, what has been committed is inserted, and nothing comes from
elsewhere. -/
structure Fed (read : Option Bytes → Option QueueRow) (log : KafkaLog) (c₀ : ℤ → ℕ) (s : Realtime) : Prop where
  merged : Merged MartPost.key MartPost.ingestedAt s.inserted s.posts
  source : ∀ q ∈ s.block ++ s.rows, OnTopic read log q
  pushed : s.pushed = true → s.block ⊆ s.rows
  taken : Holds read log c₀ s.position (s.block ++ s.rows)
  landed : Holds read log c₀ s.committed s.rows

theorem fed_init (read : Option Bytes → Option QueueRow) (log : KafkaLog) (c₀ : ℤ → ℕ) :
    (init c₀).Fed read log c₀ where
  merged := Merged.refl _
  source := by
    intro q hq
    cases hq
  pushed := by
    intro h
    cases h
  taken := by
    intro p o value hfrom hto
    exact absurd hto (not_lt.2 hfrom)
  landed := by
    intro p o value hfrom hto
    exact absurd hto (not_lt.2 hfrom)

theorem Fed.restart (h : s.Fed read log c₀) : s.restart.Fed read log c₀ where
  merged := h.merged
  source := by
    intro q hq
    exact h.source q (List.mem_append_right _ hq)
  pushed := by
    intro hp
    cases hp
  taken := h.landed
  landed := h.landed

theorem rows_insert (rs : List QueueRow) (now : ℤ) : (s.insert rs now).rows = s.rows ++ rs := by
  simp only [rows, insert, List.map_append, List.map_map]
  rw [show MartPost.toQueueRow ∘ postsMv now = id from rfl, List.map_id]

/-- Rows of the block are inserted. -/
theorem Fed.insert (h : s.Fed read log c₀) {rs : List QueueRow} (hrs : rs ⊆ s.block) (now : ℤ) :
    (s.insert rs now).Fed read log c₀ := by
  have hsub : s.rows ⊆ (s.insert rs now).rows := by
    rw [rows_insert]
    exact List.subset_append_left _ _
  refine ⟨h.merged.append _, ?_, ?_, ?_, h.landed.mono hsub⟩
  · intro q hq
    rw [rows_insert] at hq
    rcases List.mem_append.1 hq with hq | hq
    · exact h.source q (List.mem_append_left _ hq)
    · rcases List.mem_append.1 hq with hq | hq
      · exact h.source q (List.mem_append_right _ hq)
      · exact h.source q (List.mem_append_left _ (hrs hq))
  · intro hp
    exact List.Subset.trans (h.pushed hp) hsub
  · refine h.taken.mono (List.append_subset.2 ⟨List.subset_append_left _ _, ?_⟩)
    exact List.Subset.trans hsub (List.subset_append_right _ _)

/-- The consumer delivers a record that can be read. -/
theorem Fed.poll (h : s.Fed read log c₀) {p : ℤ} {o : ℕ} {value : Option Bytes} (hpush : s.pushed = false)
    (hd : World.deliverable log s.position ⟨none, some p, some o, value⟩) (hq : read value = some q) :
    Fed read log c₀ { s with block := s.block ++ [q], position := Function.update s.position p (o + 1) } := by
  have hsub : s.block ++ s.rows ⊆ (s.block ++ [q]) ++ s.rows := by
    refine List.append_subset.2 ⟨?_, List.subset_append_right _ _⟩
    exact List.Subset.trans (List.subset_append_left _ [q]) (List.subset_append_left _ _)
  refine ⟨h.merged, ?_, ?_, (h.taken.mono hsub).poll hd hq (by simp), h.landed⟩
  · intro x hx
    have hcases : x ∈ s.block ++ s.rows ∨ x = q := by
      simp only [List.mem_append, List.mem_singleton] at hx ⊢
      tauto
    rcases hcases with hx | rfl
    · exact h.source x hx
    · exact ⟨p, o, value, hd.2.1, hq⟩
  · intro hp
    rw [show s.pushed = true from hp] at hpush
    cases hpush

/-- **What a step keeps.** -/
theorem fed_step (h : s.Fed read log c₀) (a : Act) : (s.step read log a).Fed read log c₀ := by
  cases a with
  | poll p o value =>
    rw [step]
    split
    · rename_i hok
      split
      · rename_i q hq
        exact h.poll hok.1 hok.2.2 hq
      · exact h.restart
    · exact h
  | push now =>
    rw [step]
    split
    · split
      · -- the block is inserted and stays, until its offsets are committed
        have hin := h.insert (List.Subset.refl s.block) now
        refine ⟨hin.merged, hin.source, ?_, hin.taken, hin.landed⟩
        intro _ q hq
        rw [show ({ s.insert s.block now with pushed := true } : Realtime).rows = (s.insert s.block now).rows from rfl,
          rows_insert]
        exact List.mem_append_right _ hq
      · exact h.restart
    · exact h
  | tear now ds =>
    rw [step]
    split
    · exact (h.insert (List.filter_subset_self _) now).restart
    · exact h.restart
  | commit =>
    rw [step]
    split
    · rename_i hp
      have hall : s.block ++ s.rows ⊆ s.rows :=
        List.append_subset.2 ⟨h.pushed hp, List.Subset.refl _⟩
      refine ⟨h.merged, ?_, ?_, h.taken.mono hall, h.taken.mono hall⟩
      · intro q hq
        exact h.source q (List.mem_append_right _ hq)
      · intro hno
        cases hno
    · exact h
  | restart => exact h.restart
  | merge i => exact ⟨h.merged.trans (merged_collapse _ i), h.source, h.pushed, h.taken, h.landed⟩

theorem fed_run (read : Option Bytes → Option QueueRow) (log : KafkaLog) (c₀ : ℤ → ℕ) (as : List Act) :
    (Trace.run (step read log) (init c₀) as).Fed read log c₀ :=
  Trace.run_inv (I := Fed read log c₀) (fun _ a h => fed_step h a) (fed_init read log c₀) as

end Realtime

/-- **Replays do not show.** Whatever is read again, inserted again, torn or merged: `posts_dedup`
shows each `(did, rkey)` once, shows every record before the committed offsets, and shows nothing
but records of the topic, of each key the one inserted last. -/
theorem posts_dedup_replay (read : Option Bytes → Option QueueRow) (log : KafkaLog) (c₀ : ℤ → ℕ)
    (as : List Realtime.Act) :
    let s := Trace.run (Realtime.step read log) (.init c₀) as
    ((postsDedup s.posts).map MartPost.key).Nodup ∧
    (∀ p o value, c₀ p ≤ o → o < s.committed p → log p o = some value →
      ∃ q, read value = some q ∧ q.key ∈ (postsDedup s.posts).map MartPost.key) ∧
    ∀ x ∈ postsDedup s.posts, Realtime.OnTopic read log x.toQueueRow ∧
      ∀ y ∈ s.inserted, y.key = x.key → y.ingestedAt ≤ x.ingestedAt := by
  intro s
  have h : s.Fed read log c₀ := Realtime.fed_run read log c₀ as
  have hfinal := h.merged.final_perm
  refine ⟨nodup_final, ?_, ?_⟩
  · intro p o value hfrom hto hv
    obtain ⟨q, hq, hread⟩ := h.landed p o value hfrom hto hv
    obtain ⟨x, hx, rfl⟩ := List.mem_map.1 hq
    exact ⟨_, hread, h.merged.mem_map_final.2 (List.mem_map.2 ⟨x, hx, rfl⟩)⟩
  · intro x hx
    have hins : x ∈ final MartPost.key MartPost.ingestedAt s.inserted := hfinal.mem_iff.1 hx
    refine ⟨h.source _ (List.mem_append_right _ (List.mem_map.2 ⟨x, final_subset hins, rfl⟩)), ?_⟩
    intro y hy hk
    exact final_greatest hins hy hk

/-! ## The panels -/

section

variable {rows rows' : List QueueRow}

theorem postsPerMinute_perm (h : rows.Perm rows') : postsPerMinute rows = postsPerMinute rows' := by
  have htimes : (rows.map fun q => q.createdAt / 60000000 * 60000000).Perm
      (rows'.map fun q => q.createdAt / 60000000 * 60000000) := h.map _
  -- times in order, each once, are one list
  have hsorted : (rows.map fun q => q.createdAt / 60000000 * 60000000).dedup.insertionSort (· ≤ ·) =
      (rows'.map fun q => q.createdAt / 60000000 * 60000000).dedup.insertionSort (· ≤ ·) := by
    refine List.Perm.eq_of_pairwise' (List.pairwise_insertionSort _ _) (List.pairwise_insertionSort _ _) ?_
    exact (List.perm_insertionSort _ _).trans (htimes.dedup.trans (List.perm_insertionSort _ _).symm)
  simp only [postsPerMinute, hsorted, htimes.count_eq]

theorem languageCounts_perm (h : rows.Perm rows') : (languageCounts rows).Perm (languageCounts rows') := by
  have htags : (rows.flatMap QueueRow.langs).Perm (rows'.flatMap QueueRow.langs) := h.flatMap_right _
  simp only [languageCounts, htags.count_eq]
  exact htags.dedup.map _

theorem topLanguages_perm (h : rows.Perm rows') (answer : List (String × ℕ)) :
    TopLanguages rows answer ↔ TopLanguages rows' answer := by
  have hcounts := languageCounts_perm h
  constructor
  · rintro ⟨sorted, hperm, hdesc, rfl⟩
    exact ⟨sorted, hperm.trans hcounts, hdesc, rfl⟩
  · rintro ⟨sorted, hperm, hdesc, rfl⟩
    exact ⟨sorted, hperm.trans hcounts.symm, hdesc, rfl⟩

end

/-- A `(did, rkey)` identifies a post: records of one are read as the same row. -/
def Identified (read : Option Bytes → Option QueueRow) (log : KafkaLog) : Prop :=
  ∀ q q', Realtime.OnTopic read log q → Realtime.OnTopic read log q' → q.key = q'.key → q = q'

namespace Realtime

variable {read : Option Bytes → Option QueueRow} {log : KafkaLog} {c₀ : ℤ → ℕ} {s : Realtime}

/-- `posts_dedup` shows what has been inserted, once. -/
theorem Fed.dedup_perm (h : s.Fed read log c₀) (hid : Identified read log) : s.dedup.Perm s.rows.dedup := by
  have hrows : ∀ x ∈ s.inserted, ∀ y ∈ s.inserted, x.key = y.key ↔ x.toQueueRow = y.toQueueRow := by
    intro x hx y hy
    have hon : ∀ z ∈ s.inserted, OnTopic read log z.toQueueRow := fun z hz =>
      h.source _ (List.mem_append_right _ (List.mem_map.2 ⟨z, hz, rfl⟩))
    refine ⟨hid _ _ (hon x hx) (hon y hy), fun hxy => ?_⟩
    rw [MartPost.key, MartPost.key, hxy]
  exact (h.merged.final_perm.map _).trans (map_final_perm hrows)

end Realtime

/-- **The dashboard counts every post once.** Where records of one `(did, rkey)` are the same post,
each panel shows, after any replays, torn inserts and merges, what it would show of a table that
holds every record inserted so far once. -/
theorem dashboard_replay {read : Option Bytes → Option QueueRow} {log : KafkaLog} (hid : Identified read log)
    (c₀ : ℤ → ℕ) (as : List Realtime.Act) :
    let s := Trace.run (Realtime.step read log) (.init c₀) as
    totalPosts s.dedup = totalPosts s.rows.dedup ∧ postsPerMinute s.dedup = postsPerMinute s.rows.dedup ∧
      ∀ answer, TopLanguages s.dedup answer ↔ TopLanguages s.rows.dedup answer := by
  intro s
  have hperm := (Realtime.fed_run read log c₀ as).dedup_perm hid
  exact ⟨hperm.length_eq, postsPerMinute_perm hperm, topLanguages_perm hperm⟩

/-- Two posts of one author in a topic, with their texts as values. -/
def numberedPosts : KafkaLog := fun p o => if p = 0 ∧ o < 2 then some (some [UInt8.ofNat o]) else none

/-- A post in English, its number the value of the record. -/
def readNumber : Option Bytes → Option QueueRow
  | some [n] => some ⟨"did:plc:author123", "3kpost" ++ toString n.toNat, "bafypost", 1704067200000000, "text", ["en"],
      none, none⟩
  | _ => none

/-- The first post is inserted, the server restarts before the commit, and both posts are inserted. -/
def insertedAgain : List Realtime.Act :=
  [.poll 0 0 (some [0]), .push 1, .restart, .poll 0 0 (some [0]), .poll 0 1 (some [1]), .push 2, .commit]

theorem identified_readNumber : Identified readNumber numberedPosts := by
  have hread : ∀ value q, readNumber value = some q →
      q = ⟨"did:plc:author123", q.rkey, "bafypost", 1704067200000000, "text", ["en"], none, none⟩ := by
    intro value q h
    unfold readNumber at h
    split at h
    · cases h
      rfl
    · cases h
  rintro q q' ⟨p, o, value, -, hq⟩ ⟨p', o', value', -, hq'⟩ hk
  have hrkey : q.rkey = q'.rkey := congrArg Prod.snd hk
  rw [hread value q hq, hread value' q' hq', hrkey]

/-- The first post is in the table twice, and counted once. -/
theorem dashboard_replay_restart :
    let s := Trace.run (Realtime.step readNumber numberedPosts) (.init fun _ => 0) insertedAgain
    s.posts.length = 3 ∧ totalPosts s.dedup = totalPosts s.rows.dedup ∧ totalPosts s.rows.dedup = 2 :=
  ⟨by decide, (dashboard_replay identified_readNumber (fun _ => 0) insertedAgain).1, by decide⟩

end BlueskyTrends
