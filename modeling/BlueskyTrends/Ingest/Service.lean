import BlueskyTrends.Ingest.Loop

/-!
# The ingest service over its lifetimes

`JetstreamClient.events`, `CursorStore` and `run`, around the loop: the source is a log of
events, a life of the service connects to it with the cursor it loaded, reconnects with the
last `time_us` it has yielded, and saves cursors to the store. A crash ends a life at any point.

* `move_step`: what a step of the service can do.
-/

namespace BlueskyTrends

/-- The source: events with strictly increasing `time_us`. -/
structure SourceLog where
  events : List Val
  timed : ∀ e ∈ events, (timeUs e).isSome
  sorted : events.Pairwise fun e e' => ∀ t ∈ timeUs e, ∀ t' ∈ timeUs e', t < t'

/-- What a connection delivers, in order: with a cursor, the events after it, possibly with the
event at it; without one, the events from the live position on. -/
def SourceLog.connect (log : SourceLog) (cursor : Option ℤ) (boundary : Bool) (position : ℕ) : List Val :=
  match cursor with
  | some k => log.events.filter fun e => (timeUs e).any fun t => decide (k < t) || boundary && decide (t = k)
  | none => log.events.drop position

/-- A life of the service: the client's `latest_cursor`, what its connection (if any) has left
to deliver, and the process. -/
structure Life where
  latest : Option ℤ
  conn : Option (List Val)
  proc : Proc

/-- The service: the stored cursor and the current life. The last two fields record the history:
the events received, and those one of whose messages the broker has acked. -/
structure Service where
  stored : Option ℤ
  life : Option Life
  received : List Val
  acked : List Val

/-- The events one of whose messages the broker has acked. -/
def Proc.ackedEvents (p : Proc) : List Val := p.acked.filterMap fun n => p.seen[n]?

namespace Service

/-- The service before its first life, with the cursor `stored`. -/
def init (stored : Option ℤ) : Service := ⟨stored, none, [], []⟩

/-- What can happen to the service. -/
inductive Act where
  /-- The process starts: it loads the cursor. -/
  | boot (now : ℤ)
  /-- The process is gone. -/
  | crash
  /-- The client connects with its latest cursor. -/
  | connect (boundary : Bool) (position : ℕ)
  /-- The connection drops. -/
  | drop
  /-- The client yields the next event, to the loop or to its `break`. -/
  | recv (now : ℤ)
  | stop
  /-- The next call of the loop returns or raises. A `store.save` that raises may have been applied. -/
  | call
  | raise (applied : Bool)
  | report (i : ℕ) (success : Bool)

variable (H : Host) (st : IngestSettings) (log : SourceLog)

/-- The client takes the next event off its connection; the process goes on with `act`. -/
def yield (s : Service) (l : Life) (act : Val → Proc.Act) : Service :=
  match l.conn with
  | some (event :: rest) =>
    if l.proc.idle then
      { s with
        received := s.received ++ [event]
        -- the client moves its cursor before it yields
        life := some ⟨(timeUs event).or l.latest, some rest, l.proc.step H st (act event)⟩ }
    else s
  | _ => s

def step (s : Service) : Act → Service
  | .boot now => match s.life with
    | none => { s with life := some ⟨s.stored, none, .init now⟩ }
    | some _ => s
  | .crash => { s with life := none }
  | .connect boundary position => match s.life with
    | some l =>
      if l.proc.idle ∧ l.conn = none then
        { s with life := some { l with conn := some (log.connect l.latest boundary position) } }
      else s
    | none => s
  | .drop => match s.life with
    | some l => { s with life := some { l with conn := none } }
    | none => s
  | .recv now => match s.life with
    | some l => s.yield H st l fun event => .recv event now
    | none => s
  | .stop => match s.life with
    | some l => s.yield H st l fun _ => .stop
    | none => s
  | .call => match s.life with
    | some l => { s with
        stored := (l.proc.saves st .call).or s.stored
        life := some { l with proc := l.proc.step H st .call } }
    | none => s
  | .raise applied => match s.life with
    | some l => { s with
        stored := if applied then (l.proc.saves st .raise).or s.stored else s.stored
        life := some { l with proc := l.proc.step H st .raise } }
    | none => s
  | .report i success => match s.life with
    | some l => { s with
        acked := s.acked ++ (l.proc.step H st (.report i success)).ackedEvents
        life := some { l with proc := l.proc.step H st (.report i success) } }
    | none => s

/-- The process goes on, or a report reaches it. -/
def Act.proceeds : Act → Bool
  | .call | .raise _ | .report _ _ => true
  | _ => false

/-- The steps of the service, one constructor for each thing that can happen to it. -/
inductive Move (s : Service) : Act → Service → Prop
  | stay {a : Act} (ha : s.life ≠ none → a.proceeds = false) : Move s a s
  | boot {now : ℤ} (hl : s.life = none) : Move s (.boot now) { s with life := some ⟨s.stored, none, .init now⟩ }
  | crash : Move s .crash { s with life := none }
  | connect {l : Life} {boundary : Bool} {position : ℕ} (hl : s.life = some l) (hi : l.proc.idle)
      (hconn : l.conn = none) : Move s (.connect boundary position) { s with
        life := some { l with conn := some (log.connect l.latest boundary position) } }
  | drop {l : Life} (hl : s.life = some l) : Move s .drop { s with life := some { l with conn := none } }
  | recv {l : Life} {now : ℤ} {event : Val} {rest : List Val} (hl : s.life = some l)
      (hconn : l.conn = some (event :: rest)) (hi : l.proc.idle) : Move s (.recv now) { s with
        received := s.received ++ [event]
        life := some ⟨(timeUs event).or l.latest, some rest, l.proc.step H st (.recv event now)⟩ }
  | stop {l : Life} {event : Val} {rest : List Val} (hl : s.life = some l)
      (hconn : l.conn = some (event :: rest)) (hi : l.proc.idle) : Move s .stop { s with
        received := s.received ++ [event]
        life := some ⟨(timeUs event).or l.latest, some rest, l.proc.step H st .stop⟩ }
  | call {l : Life} (hl : s.life = some l) : Move s .call { s with
        stored := (l.proc.saves st .call).or s.stored
        life := some { l with proc := l.proc.step H st .call } }
  | raise {l : Life} {applied : Bool} (hl : s.life = some l) : Move s (.raise applied) { s with
        stored := if applied then (l.proc.saves st .raise).or s.stored else s.stored
        life := some { l with proc := l.proc.step H st .raise } }
  | report {l : Life} {i : ℕ} {success : Bool} (hl : s.life = some l) : Move s (.report i success) { s with
        acked := s.acked ++ (l.proc.step H st (.report i success)).ackedEvents
        life := some { l with proc := l.proc.step H st (.report i success) } }

/-- The client has an event for the process, or the step is none. -/
theorem yield_cases (s : Service) (l : Life) (act : Val → Proc.Act) : s.yield H st l act = s ∨
    ∃ event rest, l.conn = some (event :: rest) ∧ l.proc.idle ∧ s.yield H st l act = { s with
      received := s.received ++ [event]
      life := some ⟨(timeUs event).or l.latest, some rest, l.proc.step H st (act event)⟩ } := by
  unfold yield
  split
  · rename_i event rest hconn
    by_cases hi : l.proc.idle
    · exact Or.inr ⟨event, rest, hconn, hi, if_pos hi⟩
    · exact Or.inl (if_neg hi)
  · exact Or.inl rfl

/-- **What a step can do.** -/
theorem move_step (s : Service) (a : Act) : Move H st log s a (s.step H st log a) := by
  cases hl : s.life with
  | none =>
    have hstay : Move H st log s a s := .stay fun h => absurd hl h
    cases a with
    | boot now => simpa only [step, hl] using Move.boot hl
    | crash => exact .crash
    | connect | drop | recv | stop | call | raise | report => simpa only [step, hl] using hstay
  | some l =>
    cases a with
    | boot now => simpa only [step, hl] using Move.stay fun _ => rfl
    | crash => exact .crash
    | connect boundary position =>
      simp only [step, hl]
      split
      · rename_i hc
        exact .connect hl hc.1 hc.2
      · exact .stay fun _ => rfl
    | drop => simpa only [step, hl] using Move.drop hl
    | recv now =>
      simp only [step, hl]
      rcases s.yield_cases H st l fun event => .recv event now with heq | ⟨event, rest, hconn, hi, heq⟩
      · rw [heq]
        exact .stay fun _ => rfl
      · rw [heq]
        exact .recv hl hconn hi
    | stop =>
      simp only [step, hl]
      rcases s.yield_cases H st l fun _ => .stop with heq | ⟨event, rest, hconn, hi, heq⟩
      · rw [heq]
        exact .stay fun _ => rfl
      · rw [heq]
        exact .stop hl hconn hi
    | call => simpa only [step, hl] using Move.call hl
    | raise applied => simpa only [step, hl] using Move.raise hl
    | report i success => simpa only [step, hl] using Move.report hl

end Service

end BlueskyTrends
