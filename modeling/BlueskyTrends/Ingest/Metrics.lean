import BlueskyTrends.Ingest.Loop

/-!
# The counters of the ingest service

`Metrics` of `ingest/metrics.py`, and the loop of `_consume` with its `last_stats`: the calls of an
iteration count the event, and after them the loop logs the counters when `stats_interval_seconds`
have passed. They are logged once more at the end of `run`. Times are numbers of seconds.

* `get_increment`, `total_increment`: what one event adds to a counter.
-/

namespace BlueskyTrends

/-- A `Counter`: its keys in the order of their first event. -/
abbrev Counter := List (String × ℕ)

namespace Counter

/-- `counter[key] += 1`. -/
def increment : Counter → String → Counter
  | [], key => [(key, 1)]
  | (k, n) :: rest, key => if k = key then (k, n + 1) :: rest else (k, n) :: increment rest key

def get (c : Counter) (key : String) : ℕ := (c.lookup key).getD 0

/-- `sum(counter.values())`. -/
def total (c : Counter) : ℕ := (c.map Prod.snd).sum

theorem get_increment (c : Counter) (key k : String) :
    (c.increment key).get k = c.get k + if k = key then 1 else 0 := by
  induction c with
  | nil =>
    unfold increment get
    rw [List.lookup_cons]
    by_cases h : k = key
    · rw [h]
      simp
    · rw [beq_false_of_ne h]
      simp [h]
  | cons p c ih =>
    obtain ⟨k', n⟩ := p
    rw [increment]
    unfold get at ih ⊢
    by_cases hk' : k' = key
    · rw [if_pos hk', List.lookup_cons, List.lookup_cons]
      by_cases h : k = key
      · rw [hk', h]
        simp
      · have hne : k ≠ k' := by rwa [hk']
        rw [beq_false_of_ne hne]
        simp [h]
    · rw [if_neg hk', List.lookup_cons, List.lookup_cons]
      by_cases h : k = k'
      · have hne : k ≠ key := by rwa [h]
        rw [h]
        simp [hk']
      · rw [beq_false_of_ne h]
        exact ih

theorem total_increment (c : Counter) (key : String) : (c.increment key).total = c.total + 1 := by
  induction c with
  | nil => rfl
  | cons p c ih =>
    obtain ⟨k, n⟩ := p
    rw [increment]
    unfold total at ih ⊢
    split
    · simp only [List.map_cons, List.sum_cons]
      omega
    · simp only [List.map_cons, List.sum_cons, ih]
      omega

end Counter

/-- `Metrics`. -/
structure Metrics where
  events : Counter
  dlq : Counter
  lastEventTs : Option ℚ

/-- The line `ingest_stats`. -/
structure StatsLine where
  events : Counter
  eventsTotal : ℕ
  dlq : Counter
  dlqTotal : ℕ
  lastEventAgeS : Option ℚ

namespace Metrics

def init : Metrics := ⟨[], [], none⟩

def recordEvent (m : Metrics) (collection : String) (now : ℚ) : Metrics :=
  { m with events := m.events.increment collection, lastEventTs := some now }

def recordDlq (m : Metrics) (reason : String) : Metrics := { m with dlq := m.dlq.increment reason }

def logStats (m : Metrics) (now : ℚ) : StatsLine where
  events := m.events
  eventsTotal := m.events.total
  dlq := m.dlq
  dlqTotal := m.dlq.total
  lastEventAgeS := m.lastEventTs.map fun t => roundTo 3 (now - t)

end Metrics

/-- A process with its counters: `last_stats`, and the lines logged so far. -/
structure Metered where
  proc : Proc
  metrics : Metrics
  lastStats : ℤ
  lines : List StatsLine

namespace Metered

/-- Before the loop; the checkpointer reads the clock first, then `last_stats` is set. -/
def init (now now' : ℤ) : Metered := ⟨.init now, .init, now', []⟩

def log (s : Metered) (wall : ℚ) : Metered := { s with lines := s.lines ++ [s.metrics.logStats wall] }

/-- What a call that returns does to the counters, `wall` being what `time.time()` reads after it. -/
def counts (interval : ℤ) (s : Metered) (wall : ℚ) : Call → Metered
  | .recordEvent collection => { s with metrics := s.metrics.recordEvent collection wall }
  | .recordDlq reason => { s with metrics := s.metrics.recordDlq reason }
  -- the end of an iteration
  | .maybeSave now => if interval ≤ now - s.lastStats then { s.log wall with lastStats := now } else s
  -- the end of `run`
  | .finalSave => s.log wall
  | _ => s

/-- The call an action lets return. -/
def returning (s : Metered) : Proc.Act → Option Call
  | .call => s.proc.todo.head?
  | _ => none

/-- A step of the process, and what it does to the counters. -/
def step (H : Host) (st : IngestSettings) (interval : ℤ) (s : Metered) (a : Proc.Act × ℚ) : Metered :=
  { (s.returning a.1).elim s (s.counts interval a.2) with proc := s.proc.step H st a.1 }

end Metered

end BlueskyTrends
