import BlueskyTrends.Ingest.Loop

/-!
# The Jetstream client

`backoff_delay` and `JetstreamClient.events` of `ingest/jetstream_client.py`. A float of the settings or of a delay
is the rational number it stands for; `2**attempt` is an `int`, which the product with a float converts.

A run of the client is a list of connection attempts: what each of them meets, and the value `random.random()` has
in the handler. The client records what it does: the cursors it connects with, the events it yields, its sleeps.

* `backoffDelay_ok`, `backoffDelay_error`: the delay, and the attempt from which there is none.
* `receive_eq`: a connection yields the events up to the first frame that raises.
* `step_eq`: an iteration, up to its handler and with it.
-/

namespace BlueskyTrends

/-- The settings `backoff_delay` reads. -/
structure BackoffSettings where
  backoffInitialSeconds : ℚ
  backoffMaxSeconds : ℚ
  backoffJitterRatio : ℚ

/-- An `OverflowError`, by its text. -/
structure OverflowError where
  text : String
  deriving DecidableEq

/-- `sys.float_info.max_exp`: the doubles end below `2^1024`. -/
@[irreducible] def floatMaxExp : ℕ := 1024

/-- `float(n)` of an `int`. -/
def floatOfInt (n : ℕ) : Except OverflowError ℚ :=
  if n < 2 ^ floatMaxExp then .ok n else .error ⟨"int too large to convert to float"⟩

/-- `backoff_delay`. -/
def backoffDelay (st : BackoffSettings) (attempt : ℕ) (rand : ℚ) : Except OverflowError ℚ := do
  -- the product is formed before the cap applies
  let growth ← floatOfInt (2 ^ attempt)
  let base := min (st.backoffInitialSeconds * growth) st.backoffMaxSeconds
  let jitter := base * st.backoffJitterRatio * (2 * rand - 1)
  return max 0 (base + jitter)

/-- A text frame, by what `json.loads` makes of it; `none` where that raises. -/
structure Frame where
  loaded : Option Val

/-- `json.loads` and `event.get("time_us")`: the event and its time, unless one of them raises. -/
def Frame.read (raw : Frame) : Option (Val × Val) := do
  let event ← raw.loaded
  -- a JSON value that is not an object has no `get`
  let ts ← (event.get "time_us").toOption
  return (event, ts)

/-- What a connection attempt meets: it is refused, or it opens, delivers frames, and ends. The server closes it
normally (`closed`), which ends the iteration, or it drops, which raises. -/
inductive Outcome where
  | refused
  | opened (frames : List Frame) (closed : Bool)

/-- A connection attempt, and the value `random.random()` has in its handler. -/
structure Attempt where
  outcome : Outcome
  rand : ℚ

/-- What the client does. -/
inductive ClientEffect where
  | connect (cursor : Option ℤ)
  | yield (event : Val)
  | sleep (delay : ℚ)

/-- The locals of `events`, what it has done so far, and the exception it has left its loop with, if any. -/
structure Client where
  attempt : ℕ
  latestCursor : Option ℤ
  effects : List ClientEffect
  raised : Option OverflowError

namespace Client

/-- `events(cursor)`, before its loop. -/
def init (cursor : Option ℤ) : Client := ⟨0, cursor, [], none⟩

def emit (c : Client) (e : ClientEffect) : Client := { c with effects := c.effects ++ [e] }

/-- The `async for` over the frames a connection delivers; and whether it ends without an exception. The cursor is
taken as an integer: a `time_us` that is a `bool` counts as 0 or 1. -/
def receive : Client → List Frame → Client × Bool
  | c, [] => (c, true)
  | c, raw :: rest =>
    match raw.read with
    | none => (c, false)
    | some (event, ts) => receive ({ c with latestCursor := ts.asInt?.or c.latestCursor }.emit (.yield event)) rest

/-- The handler `except Exception`. -/
def handle (st : BackoffSettings) (c : Client) (rand : ℚ) : Client :=
  match backoffDelay st c.attempt rand with
  | .ok delay => { c.emit (.sleep delay) with attempt := c.attempt + 1 }
  -- an exception raised in a handler leaves the generator
  | .error exc => { c with raised := some exc }

/-- One iteration of `while True`. -/
def step (st : BackoffSettings) (c : Client) (a : Attempt) : Client :=
  if c.raised.isSome then c
  else
    let c := c.emit (.connect c.latestCursor)
    match a.outcome with
    | .refused => c.handle st a.rand
    | .opened frames closed =>
      let (c, returned) := receive { c with attempt := 0 } frames
      -- after a normal close the loop goes on at once
      if returned && closed then c else c.handle st a.rand

end Client

/-! ## What the operations do -/

variable {st : BackoffSettings} {n : ℕ} {rand : ℚ}

/-- The bare exponential, capped. -/
def BackoffSettings.base (st : BackoffSettings) (n : ℕ) : ℚ :=
  min (st.backoffInitialSeconds * 2 ^ n) st.backoffMaxSeconds

theorem pow_lt_floatMaxExp : 2 ^ n < 2 ^ floatMaxExp ↔ n < 1024 := by
  rw [Nat.pow_lt_pow_iff_right (by omega), floatMaxExp]

theorem floatOfInt_pow_ok (hn : n < 1024) : floatOfInt (2 ^ n) = .ok (2 ^ n) := by
  rw [floatOfInt, if_pos (pow_lt_floatMaxExp.2 hn), Nat.cast_pow, Nat.cast_ofNat]

theorem floatOfInt_pow_error (hn : 1024 ≤ n) :
    floatOfInt (2 ^ n) = .error ⟨"int too large to convert to float"⟩ := by
  have hle : ¬ 2 ^ n < 2 ^ floatMaxExp := by
    rw [pow_lt_floatMaxExp]
    omega
  rw [floatOfInt, if_neg hle]

theorem backoffDelay_ok (hn : n < 1024) :
    backoffDelay st n rand =
      .ok (max 0 (st.base n + st.base n * st.backoffJitterRatio * (2 * rand - 1))) := by
  rw [backoffDelay, floatOfInt_pow_ok hn]
  rfl

theorem backoffDelay_error (hn : 1024 ≤ n) :
    backoffDelay st n rand = .error ⟨"int too large to convert to float"⟩ := by
  rw [backoffDelay, floatOfInt_pow_error hn]
  rfl

/-- The events of the frames up to the first that raises, with their `time_us`. -/
def readable : List Frame → List (Val × Val)
  | [] => []
  | raw :: rest => match raw.read with
    | none => []
    | some x => x :: readable rest

/-- The last integer `time_us` of some events. -/
def lastTime (xs : List (Val × Val)) : Option ℤ := (xs.filterMap fun x => x.2.asInt?).getLast?

/-- The handler is entered. -/
def Attempt.fails (a : Attempt) : Bool :=
  match a.outcome with
  | .refused => true
  | .opened frames closed => !(frames.all (·.read.isSome) && closed)

def Attempt.refused (a : Attempt) : Bool :=
  match a.outcome with
  | .refused => true
  | .opened _ _ => false

/-- What the attempt yields. -/
def Attempt.yields (a : Attempt) : List (Val × Val) :=
  match a.outcome with
  | .refused => []
  | .opened frames _ => readable frames

namespace Client

variable {c : Client} {a : Attempt} {frames : List Frame}

/-- **What a connection leaves behind**: the events up to the first frame that raises are yielded, and the last of
them sets the cursor. -/
theorem receive_eq (c : Client) (frames : List Frame) :
    c.receive frames =
      ({ c with
          latestCursor := (lastTime (readable frames)).or c.latestCursor
          effects := c.effects ++ (readable frames).map fun x => .yield x.1 },
        frames.all (·.read.isSome)) := by
  -- along the frames; each moves the cursor
  induction frames generalizing c with
  | nil => simp [receive, readable, lastTime]
  | cons raw rest ih =>
    cases hr : raw.read with
    | none => simp [receive, readable, lastTime, hr]
    | some x =>
      have hlast : lastTime (x :: readable rest) = (lastTime (readable rest)).or x.2.asInt? := by
        unfold lastTime
        cases hx : x.2.asInt? with
        | none => simp [hx]
        | some t => simp [hx, List.getLast?_cons, Option.or_some]
      rw [receive, hr]
      simp only [ih, readable, hr, emit, hlast, Option.or_assoc, List.all_cons, Option.isSome_some, Bool.true_and,
        List.map_cons, List.append_assoc, List.singleton_append]

/-- What an iteration does up to its handler. -/
def opened (c : Client) (a : Attempt) : Client where
  attempt := if a.refused then c.attempt else 0
  latestCursor := (lastTime a.yields).or c.latestCursor
  effects := c.effects ++ .connect c.latestCursor :: a.yields.map fun x => .yield x.1
  raised := c.raised

/-- **One iteration** of a client that is still in its loop. -/
theorem step_eq (h : c.raised = none) :
    c.step st a = if a.fails then (c.opened a).handle st a.rand else c.opened a := by
  rw [step, h]
  unfold opened Attempt.fails Attempt.refused Attempt.yields
  cases ho : a.outcome with
  | refused => simp [emit, lastTime]
  | opened frames closed =>
    simp only [Option.isSome_none, Bool.false_eq_true, if_false, receive_eq, emit]
    cases hall : frames.all (·.read.isSome) <;> cases closed <;> simp [h]

end Client

end BlueskyTrends
