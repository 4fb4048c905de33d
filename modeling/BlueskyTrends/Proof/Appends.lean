import BlueskyTrends.Proof.HeldTime
import BlueskyTrends.Lib.Trace

/-!
# How many appends a run makes

Every append of a run but the last is charged either to N rows or to T seconds since the append before.
`Tally` is a run with the number of its appends and the readings of its clock, whatever the consumer delivers.

* `charged_step`: a step keeps the charges apart.
* `appends_le`: **a run that returns makes at most `archived / N + duration / T + 1` appends.**
-/

namespace BlueskyTrends

variable {Row : Type} [KafkaRow Row] {A : Archiver Row} {st : BronzeSettings} {r r' : Run Row}

/-- A run with its appends so far, the last reading of its clock, and the last one at a poll. -/
structure Tally (Row : Type) [KafkaRow Row] where
  run : Run Row
  appends : ℕ
  clock : ℤ
  polled : ℤ

/-- The clock readings of an action. -/
def World.RunAct.readings : World.RunAct → List ℤ
  | .poll _ now _ now' => [now, now']
  | .go now _ => [now]
  | .raise | .report _ _ => []

namespace Tally

/-- A run starts, with the readings of `last_flush` and `last_activity`. -/
def start (st : BronzeSettings) (now now' : ℤ) : Tally Row := ⟨.init st now now', 0, now', now⟩

/-- The appends an effect is. -/
def appendsOf : Option (Effect Row) → ℕ
  | some (.append _) => 1
  | _ => 0

/-- A step of the run. The polls return anything. -/
def step (A : Archiver Row) (st : BronzeSettings) (s : Tally Row) (x : Deserializer × World.RunAct) :
    Tally Row :=
  match x.2 with
  | .poll msg now ts now' =>
    if s.run.ctl = .top ∧ s.run.goesOn st then
      ⟨s.run.poll A x.1 msg now ts now', s.appends, now', now'⟩
    else { s with clock := now' }
  | .go now assignment => { s with
      run := (s.run.go A st now assignment).1
      appends := s.appends + appendsOf (s.run.go A st now assignment).2
      clock := now }
  | .raise => { s with run := s.run.raise }
  | .report _ _ => s

/-- The clock does not go back. -/
def Ticks (s : Tally Row) (x : Deserializer × World.RunAct) : Prop :=
  (s.clock :: x.2.readings).Pairwise (· ≤ ·)

instance (s : Tally Row) (x : Deserializer × World.RunAct) : Decidable (s.Ticks x) := by
  unfold Ticks
  infer_instance

/-- What a flush under way is charged to: it is the last one, or the batch is full, or old. -/
def Due (st : BronzeSettings) (s : Tally Row) (next : Next) : Prop :=
  next = .closing ∨ st.bronzeBatchMaxRows ≤ s.run.batch.rows.length ∨
    ∃ t ≤ s.polled, st.bronzeBatchMaxSeconds ≤ t - s.run.lastFlush

/-- The appends so far, of which `n` are charged. -/
def Counted (st : BronzeSettings) (s : Tally Row) (n : ℕ) : Prop :=
  match s.run.ctl with
  | .append next => s.appends = n ∧ s.Due st next
  | .commit next => s.appends = n + 1 ∧ s.Due st next
  | .closing true | .done true => s.appends ≤ n + 1
  | .closing false | .done false => True
  | .top | .idle | .send _ _ _ | .commitPast _ _ => s.appends = n

/-- Of the appends charged, `a` are charged to N rows archived and `b` to T seconds each, before the time
`u`. -/
structure Charged (st : BronzeSettings) (t₀ : ℤ) (s : Tally Row) (a b : ℕ) (u : ℤ) : Prop where
  bounds : s.run.Bounds st
  rows : a * st.bronzeBatchMaxRows ≤ s.run.archived
  seconds : b * st.bronzeBatchMaxSeconds ≤ u - t₀
  polled : u ≤ s.polled
  flushed : u ≤ s.run.lastFlush
  lastFlush : s.run.lastFlush ≤ s.clock
  clock : s.polled ≤ s.clock
  counted : s.Counted st (a + b)

variable {s s' : Tally Row} {t₀ u now now' : ℤ} {a b n : ℕ}

namespace Charged

/-- A step that archives nothing. -/
theorem frame (h : Charged st t₀ s a b u) (hb : s'.run.Bounds st) (ha : s'.run.archived = s.run.archived)
    (hl : s'.run.lastFlush = s.run.lastFlush) (hp : s.polled ≤ s'.polled) (hpc : s'.polled ≤ s'.clock)
    (hc : s.clock ≤ s'.clock) (hcount : s'.Counted st (a + b)) : Charged st t₀ s' a b u where
  bounds := hb
  rows := by rw [ha]; exact h.rows
  seconds := h.seconds
  polled := h.polled.trans hp
  flushed := by rw [hl]; exact h.flushed
  lastFlush := by rw [hl]; exact h.lastFlush.trans hc
  clock := hpc
  counted := hcount

/-- A poll finds the batch full, or old, before it comes to a flush. -/
theorem poll (h : Charged st t₀ s a b u) (ht : s.run.ctl = .top) (hnow : s.clock ≤ now)
    (hmono : now ≤ now') (deserializer : Deserializer) (msg : Option Msg) (ts : ℤ) :
    Charged st t₀ ⟨s.run.poll A deserializer msg now ts now', s.appends, now', now'⟩ a b u := by
  have hbounds := Run.bounds_poll (A := A) h.bounds deserializer msg now ts now'
  have hclock := h.clock
  have hcount : s.appends = a + b := by
    have := h.counted
    rwa [Counted, ht] at this
  have hchecks := Run.checks_poll A deserializer s.run msg now ts now'
  generalize s.run.poll A deserializer msg now ts now' = r' at hchecks hbounds ⊢
  -- a flush is charged to what `should_flush` has found
  have hdue : ∀ {batch : Batch Row} {t : ℤ}, r'.batch = batch → r'.lastFlush = s.run.lastFlush → t ≤ now' →
      batch.shouldFlush (t - s.run.lastFlush) = true →
      ∀ next, Due st (⟨r', s.appends, now', now'⟩ : Tally Row) next := by
    rintro batch t rfl hl hle hfull next
    have hmaxRows := hbounds.maxRows
    have hmaxSeconds := hbounds.maxSeconds
    rcases (Batch.shouldFlush_iff.1 hfull).2 with hrows | hage
    · exact Or.inr (Or.inl (by rw [← hmaxRows]; exact hrows))
    · exact Or.inr (Or.inr ⟨t, hle, by rw [hl, ← hmaxSeconds]; exact hage⟩)
  cases hchecks with
  | idle hb hl ha hc =>
    refine h.frame hbounds ha hl (by simp only; omega) le_rfl (by simp only; omega) ?_
    unfold Counted
    split at hc
    · rename_i hfull
      simp only [hc]
      exact ⟨hcount, hdue hb hl hmono hfull _⟩
    · simp only [hc]
      exact hcount
  | row hlooks hb hl ha hc =>
    refine h.frame hbounds ha hl (by simp only; omega) le_rfl (by simp only; omega) ?_
    unfold Counted
    split at hc
    · rename_i hfull
      simp only [hc]
      exact ⟨hcount, hdue hb hl le_rfl hfull _⟩
    · simp only [hc]
      exact hcount
  | skip hlooks hb hl ha hc =>
    refine h.frame hbounds ha hl (by simp only; omega) le_rfl (by simp only; omega) ?_
    unfold Counted
    rcases hc with hc | hc | ⟨d, p, o, hc⟩
    · simp only [hc]
      exact hcount
    · simp only [hc]
    · simp only [hc]
      exact hcount

/-- Coming to the last flush. -/
theorem closing (h : Charged st t₀ s a b u) (hcount : s.appends = a + b) (hnow : s.clock ≤ now) :
    Charged st t₀ { s with run := s.run.flush .closing, clock := now } a b u := by
  have hclock := h.clock
  refine h.frame (h.bounds.frame rfl) rfl rfl le_rfl (by simp only; omega) hnow ?_
  unfold Counted
  cases hempty : s.run.batch.isEmpty with
  | true =>
    simp only [Run.flush, hempty, if_true, Next.ctl]
    omega
  | false =>
    simp only [Run.flush, hempty]
    exact ⟨hcount, Or.inl rfl⟩

/-- **The commit of a flush** settles what its append is charged to. -/
theorem commit (h : Charged st t₀ s a b u) {next : Next} (ht : s.run.ctl = .commit next)
    (hnow : s.clock ≤ now) : ∃ a b u, Charged st t₀ { s with
      run := { s.run with
        archived := s.run.archived + s.run.batch.rows.length
        batch := s.run.batch.clear
        lastFlush := now
        ctl := next.ctl }
      clock := now } a b u := by
  obtain ⟨hcount, hdue⟩ : s.appends = a + b + 1 ∧ s.Due st next := by
    have := h.counted
    rwa [Counted, ht] at this
  have hrows := h.rows
  have hseconds := h.seconds
  have hpolled := h.polled
  have hflushed := h.flushed
  have hclock := h.clock
  have hsettle : ∀ (a' b' : ℕ) (u' : ℤ),
      a' * st.bronzeBatchMaxRows ≤ ((s.run.archived + s.run.batch.rows.length : ℕ) : ℤ) →
      b' * st.bronzeBatchMaxSeconds ≤ u' - t₀ → u' ≤ s.polled →
      s.appends = a' + b' ∨ next = .closing ∧ s.appends = a' + b' + 1 → Charged st t₀ { s with
        run := { s.run with
          archived := s.run.archived + s.run.batch.rows.length
          batch := s.run.batch.clear
          lastFlush := now
          ctl := next.ctl }
        clock := now } a' b' u' := by
    intro a' b' u' hrows' hseconds' hpolled' hcount'
    refine ⟨⟨h.bounds.maxRows, h.bounds.maxSeconds⟩, hrows', hseconds', hpolled', ?_, le_rfl, ?_, ?_⟩
    · simp only
      omega
    · simp only
      omega
    · rcases hcount' with hcount' | ⟨rfl, hcount'⟩
      · cases next with
        | closing => exact hcount'.le.trans (Nat.le_succ _)
        | top | idle => exact hcount'
      · exact hcount'.le
  rcases hdue with hclosing | hfull | ⟨t, hle, hage⟩
  · -- the last flush is not charged
    refine ⟨a, b, u, hsettle a b u ?_ hseconds hpolled (Or.inr ⟨hclosing, hcount⟩)⟩
    push_cast
    omega
  · refine ⟨a + 1, b, u, hsettle (a + 1) b u ?_ hseconds hpolled (Or.inl (by omega))⟩
    push_cast
    rw [add_mul, one_mul]
    omega
  · refine ⟨a, b + 1, t, hsettle a (b + 1) t ?_ ?_ hle (Or.inl (by omega))⟩
    · push_cast
      omega
    · push_cast
      rw [add_mul, one_mul]
      omega

/-- **An effect keeps the charges apart.** -/
theorem go (h : Charged st t₀ s a b u) (hnow : s.clock ≤ now) (deserializer : Deserializer)
    (assignment : List ℤ) : ∃ a b u, Charged st t₀ (s.step A st (deserializer, .go now assignment)) a b u := by
  have hclock := h.clock
  have hcounted := h.counted
  unfold Counted at hcounted
  unfold step Run.go
  cases ht : s.run.ctl with
  | top =>
    rw [ht] at hcounted
    simp only
    split
    · refine ⟨a, b, u, h.frame h.bounds rfl rfl le_rfl (by simp only; omega) hnow ?_⟩
      unfold Counted
      simp only [ht]
      exact hcounted
    · exact ⟨a, b, u, h.closing hcounted hnow⟩
  | append next =>
    rw [ht] at hcounted
    refine ⟨a, b, u, h.frame (h.bounds.frame rfl) rfl rfl le_rfl (by simp only; omega) hnow ?_⟩
    obtain ⟨hcount, hdue⟩ := hcounted
    exact ⟨by simp only [appendsOf]; omega, hdue⟩
  | commit next => exact h.commit ht hnow
  | idle =>
    rw [ht] at hcounted
    simp only
    split
    · exact ⟨a, b, u, h.closing hcounted hnow⟩
    · exact ⟨a, b, u, h.frame (h.bounds.frame rfl) rfl rfl le_rfl (by simp only; omega) hnow hcounted⟩
  | send | commitPast =>
    rw [ht] at hcounted
    exact ⟨a, b, u, h.frame (h.bounds.frame rfl) rfl rfl le_rfl (by simp only; omega) hnow hcounted⟩
  | closing returned =>
    rw [ht] at hcounted
    refine ⟨a, b, u, h.frame (h.bounds.frame rfl) rfl rfl le_rfl (by simp only; omega) hnow ?_⟩
    cases returned with
    | true => exact hcounted
    | false => trivial
  | done returned =>
    refine ⟨a, b, u, h.frame h.bounds rfl rfl le_rfl (by simp only; omega) hnow ?_⟩
    unfold Counted
    simp only [ht]
    rw [ht] at hcounted
    cases returned with
    | true => exact hcounted
    | false => trivial

end Charged

/-- **A step keeps the charges apart.** -/
theorem charged_step {x : Deserializer × World.RunAct} (hticks : s.Ticks x)
    (h : ∃ a b u, Charged st t₀ s a b u) : ∃ a b u, Charged st t₀ (s.step A st x) a b u := by
  obtain ⟨a, b, u, h⟩ := h
  obtain ⟨deserializer, act⟩ := x
  cases act with
  | poll msg now ts now' =>
    have hpair : s.clock ≤ now ∧ s.clock ≤ now' ∧ now ≤ now' := by
      simpa [Ticks, World.RunAct.readings, and_assoc] using hticks
    simp only [step]
    split
    · rename_i hgo
      exact ⟨a, b, u, h.poll hgo.1 hpair.1 hpair.2.2 deserializer msg ts⟩
    · have hclock := h.clock
      exact ⟨a, b, u, h.frame h.bounds rfl rfl le_rfl (by simp only; omega) hpair.2.1 h.counted⟩
  | go now assignment =>
    have hnow : s.clock ≤ now := by simpa [Ticks, World.RunAct.readings] using hticks
    exact h.go hnow deserializer assignment
  | raise =>
    refine ⟨a, b, u, ?_⟩
    simp only [step]
    unfold Run.raise
    split <;> exact h.frame (h.bounds.frame rfl) rfl rfl le_rfl h.clock le_rfl trivial
  | report i success => exact ⟨a, b, u, h⟩

theorem charged_start {now now' : ℤ} (h : now ≤ now') :
    Charged st now (start st now now' : Tally Row) 0 0 now where
  bounds := ⟨rfl, rfl⟩
  rows := by simp [start, Run.init]
  seconds := by simp
  polled := le_rfl
  flushed := le_rfl
  lastFlush := h
  clock := h
  counted := rfl

end Tally

/-- **Appends are batched.** A run of an archiver that returns, whatever its polls return and with a clock that
does not go back, has made at most `archived / N + duration / T + 1` appends; its duration is the time from its
start to its last poll. -/
theorem appends_le (A : Archiver Row) (st : BronzeSettings) (hN : 1 ≤ st.bronzeBatchMaxRows)
    (hT : 0 < st.bronzeBatchMaxSeconds) {now now' : ℤ} (hstart : now ≤ now')
    (as : List (Deserializer × World.RunAct))
    (hticks : Trace.Along (Tally.step A st) Tally.Ticks (.start st now now') as) :
    let s := Trace.run (Tally.step A st) (.start st now now') as
    s.run.ctl = .done true →
      (s.appends : ℤ) ≤ s.run.archived / st.bronzeBatchMaxRows + (s.polled - now) / st.bronzeBatchMaxSeconds + 1 := by
  intro s hdone
  obtain ⟨a, b, u, h⟩ : ∃ a b u, Tally.Charged st now s a b u :=
    Trace.run_inv_along (I := fun s => ∃ a b u, Tally.Charged st now s a b u)
      (fun _ _ hticks h => Tally.charged_step hticks h) ⟨0, 0, now, Tally.charged_start hstart⟩ hticks
  have hcount : s.appends ≤ a + b + 1 := by
    have := h.counted
    rwa [Tally.Counted, hdone] at this
  have hrows : (a : ℤ) ≤ s.run.archived / st.bronzeBatchMaxRows :=
    (Int.le_ediv_iff_mul_le (by omega)).2 h.rows
  have hseconds : (b : ℤ) ≤ (s.polled - now) / st.bronzeBatchMaxSeconds := by
    rw [Int.le_ediv_iff_mul_le hT]
    have := h.seconds
    have := h.polled
    omega
  omega

/-- Two posts, each flushed by age. -/
def agedPosts : List (Deserializer × World.RunAct) :=
  [.poll (messageAt 0 postBytes) 0 1 0, .poll none 6000000000 1 6000000000, .go 6000000000 [0],
    .go 6000000000 [0], .go 6000000000 [0], .poll (messageAt 1 postBytes) 7000000000 2 7000000000,
    .poll (some ⟨some .partitionEof, some 0, none, none⟩) 7000000000 2 7000000000,
    .poll none 11000000000 2 11000000000, .go 11000000000 [0], .go 11000000000 [0], .go 11000000000 [0],
    .go 11000000000 [0]].map fun a => (postDeserializer, a)

theorem appends_le_aged :
    let s := Trace.run (Tally.step (postsBronze asciiHost defaultSettings) defaultSettings)
      (.start defaultSettings 0 0) agedPosts
    s.appends = 2 ∧ (s.appends : ℤ) ≤ s.run.archived / defaultSettings.bronzeBatchMaxRows +
      (s.polled - 0) / defaultSettings.bronzeBatchMaxSeconds + 1 :=
  ⟨by decide, appends_le (postsBronze asciiHost defaultSettings) defaultSettings (by decide) (by decide) le_rfl
    agedPosts (by decide) (by decide)⟩

end BlueskyTrends
