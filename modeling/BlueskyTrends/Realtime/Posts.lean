import BlueskyTrends.Bronze.Archiver
import BlueskyTrends.Lib.Replacing
import BlueskyTrends.Proof.Partitions

/-!
# The real-time posts

`clickhouse/init/001_posts.sql`: `posts_queue` reads `bsky.posts.v1` in blocks, `posts_mv` stamps a
block and inserts it into the replacing table `posts`, and the offsets are committed after the
insert; `posts_dedup` reads `posts` with `FINAL`. The panels of the posts dashboard are queries of
`posts_dedup`.

How the server turns a message value into a row of `posts_queue` is a parameter.
-/

namespace BlueskyTrends

open Replacing

/-- A row of `posts_queue`, `created_at` in microseconds. -/
structure QueueRow where
  did : String
  rkey : String
  cid : String
  createdAt : ℤ
  text : String
  langs : List String
  replyParent : Option String
  replyRoot : Option String
  deriving DecidableEq

/-- A row of `posts`, `ingested_at` in milliseconds. -/
structure MartPost extends QueueRow where
  ingestedAt : ℤ
  deriving DecidableEq

/-- `ORDER BY (did, rkey)`. -/
def QueueRow.key (q : QueueRow) : String × String := (q.did, q.rkey)

def MartPost.key (x : MartPost) : String × String := x.toQueueRow.key

/-- `posts_mv`, at the time `now64(3)`. -/
def postsMv (now : ℤ) (q : QueueRow) : MartPost := { q with ingestedAt := now }

/-- `posts_dedup`. -/
def postsDedup (posts : List MartPost) : List MartPost := final MartPost.key MartPost.ingestedAt posts

/-- `kafka_max_block_size`. -/
def kafkaMaxBlockSize : ℕ := 100000

/-- The table `posts` and the consumer of `posts_queue`. A block that is `pushed` has been inserted,
and its offsets are still to be committed. The rows inserted so far are history. -/
structure Realtime where
  posts : List MartPost
  committed : ℤ → ℕ
  position : ℤ → ℕ
  block : List QueueRow
  pushed : Bool
  inserted : List MartPost

namespace Realtime

/-- The server with an empty table. -/
def init (committed : ℤ → ℕ) : Realtime := ⟨[], committed, committed, [], false, []⟩

/-- What can happen to it. -/
inductive Act where
  /-- The consumer delivers a record. -/
  | poll (partition : ℤ) (offset : ℕ) (value : Option Bytes)
  /-- The block is inserted. -/
  | push (now : ℤ)
  /-- The server goes down in an insert, with the parts of these days written. -/
  | tear (now : ℤ) (days : List ℤ)
  | commit
  | restart
  /-- A background merge drops the `i`-th row if it is superseded. -/
  | merge (i : ℕ)

/-- An exception, a rebalance or a restart: what was read since the last commit is read again. -/
def restart (s : Realtime) : Realtime := { s with block := [], pushed := false, position := s.committed }

/-- `posts_mv` inserts rows. -/
def insert (s : Realtime) (rows : List QueueRow) (now : ℤ) : Realtime :=
  { s with posts := s.posts ++ rows.map (postsMv now), inserted := s.inserted ++ rows.map (postsMv now) }

/-- `PARTITION BY toYYYYMMDD(created_at)`. -/
def days (rows : List QueueRow) : List ℤ := (rows.map fun q => toYYYYMMDD q.createdAt).dedup

def step (read : Option Bytes → Option QueueRow) (log : KafkaLog) (s : Realtime) : Act → Realtime
  | .poll p o value =>
    if s.pushed = false ∧ s.block.length < kafkaMaxBlockSize ∧
        World.deliverable log s.position ⟨none, some p, some o, value⟩ then
      match read value with
      | some q => { s with block := s.block ++ [q], position := Function.update s.position p (o + 1) }
      -- no setting has the engine skip a message it cannot read
      | none => s.restart
    else s
  | .push now =>
    if s.pushed = false ∧ s.block ≠ [] then
      if (days s.block).length ≤ maxPartitionsPerInsertBlock then { s.insert s.block now with pushed := true }
      else s.restart
    else s
  | .tear now ds =>
    if s.pushed = false ∧ (days s.block).length ≤ maxPartitionsPerInsertBlock then
      (s.insert (s.block.filter fun q => toYYYYMMDD q.createdAt ∈ ds) now).restart
    else s.restart
  | .commit =>
    if s.pushed then { s with block := [], pushed := false, committed := s.position } else s
  | .restart => s.restart
  | .merge i => { s with posts := collapse MartPost.key MartPost.ingestedAt s.posts i }

end Realtime

/-! ## The dashboard -/

/-- "Total posts (deduped)". -/
def totalPosts (rows : List QueueRow) : ℕ := rows.length

/-- "Posts per minute (event time)": `GROUP BY toStartOfMinute(created_at) ORDER BY time`. -/
def postsPerMinute (rows : List QueueRow) : List (ℤ × ℕ) :=
  let times := rows.map fun q => q.createdAt / 60000000 * 60000000
  (times.dedup.insertionSort (· ≤ ·)).map fun time => (time, times.count time)

/-- `ARRAY JOIN langs AS lang GROUP BY lang`: a post counts once for each tag, one without tags for
none. -/
def languageCounts (rows : List QueueRow) : List (String × ℕ) :=
  let tags := rows.flatMap QueueRow.langs
  tags.dedup.map fun lang => (lang, tags.count lang)

/-- "Top languages": an answer to `ORDER BY posts DESC LIMIT 15`, which leaves ties open. -/
def TopLanguages (rows : List QueueRow) (answer : List (String × ℕ)) : Prop :=
  ∃ sorted : List (String × ℕ), sorted.Perm (languageCounts rows) ∧ sorted.Pairwise (fun a b => b.2 ≤ a.2) ∧
    answer = sorted.take 15

/-- The rows the panels read. -/
def Realtime.dedup (s : Realtime) : List QueueRow := (postsDedup s.posts).map MartPost.toQueueRow

end BlueskyTrends
