import BlueskyTrends.Proof.Watermark
import BlueskyTrends.Proof.Cursor
import BlueskyTrends.Proof.Envelope
import BlueskyTrends.Proof.Resume
import BlueskyTrends.Bronze.Archiver
import BlueskyTrends.Proof.ArchiverStep
import BlueskyTrends.Proof.WriteBeforeCommit
import BlueskyTrends.Proof.Quarantine
import BlueskyTrends.Proof.Offsets
import BlueskyTrends.Proof.Recovery
import BlueskyTrends.Proof.Completeness
import BlueskyTrends.Proof.Duplicates
import BlueskyTrends.Proof.Idempotence
import BlueskyTrends.Proof.FreshStream
import BlueskyTrends.Proof.Payload
import BlueskyTrends.Proof.Archived
import BlueskyTrends.Proof.Consumed
import BlueskyTrends.Proof.Overlap
import BlueskyTrends.Proof.Appends
import BlueskyTrends.Proof.Drained
import BlueskyTrends.Proof.Forward
import BlueskyTrends.Proof.Lag
import BlueskyTrends.Proof.Pacing
import BlueskyTrends.Proof.BadFrame
import BlueskyTrends.Proof.LangMart
import BlueskyTrends.Proof.Wrap
import BlueskyTrends.Proof.Boundary
import BlueskyTrends.Proof.Transpose
import BlueskyTrends.Proof.Partitions
import BlueskyTrends.Proof.Realtime
import BlueskyTrends.Proof.Generations
import BlueskyTrends.Proof.Replay
import BlueskyTrends.Proof.Enqueue
import BlueskyTrends.Proof.Metrics
import BlueskyTrends.Proof.Streams
import BlueskyTrends.Proof.Checks
import BlueskyTrends.Proof.Restart
import BlueskyTrends.Proof.Wire
import BlueskyTrends.Proof.CatchUp
import BlueskyTrends.Proof.Filter
