import BlueskyTrends.Proof.ArchiverStep

/-!
# How long a row is held

An archiver flushes its batch at N rows or after T seconds, but it looks at the time only on some of its
poll results. `Run.turn` is an iteration of the loop, from the poll to the loop's head or out of the loop.

* `checks_poll`: on which poll results the loop looks at the time.
* `turn_flush`, `turn_keeps`: what an iteration does with its batch.
* `held_time_iff`: the time bound is enforced exactly when the polls that find it passed are of those.
-/

namespace BlueskyTrends

variable {Row : Type} [KafkaRow Row] {A : Archiver Row} {st : BronzeSettings} {r r' : Run Row}

/-- The loop looks at the time: the poll returned nothing or a decodable message. -/
def Archiver.looks (A : Archiver Row) (deserializer : Deserializer) : Option Msg → Bool
  | none => true
  | some ⟨none, some _, some _, value⟩ => A.accepts deserializer value
  | _ => false

/-- A flush is under way. -/
def Ctl.writes : Ctl → Bool
  | .append _ | .commit _ => true
  | _ => false

namespace Run

/-- What a poll result leads to. -/
inductive Checks (A : Archiver Row) (deserializer : Deserializer) (r : Run Row) (now now' : ℤ) :
    Option Msg → Run Row → Prop
  /-- Nothing was polled, and the batch is looked at. -/
  | idle {r' : Run Row} (hb : r'.batch = r.batch) (hl : r'.lastFlush = r.lastFlush)
      (ha : r'.archived = r.archived)
      (hc : r'.ctl = if r.batch.shouldFlush (now - r.lastFlush) then .append .idle else .idle) :
      Checks A deserializer r now now' none r'
  /-- A row is added, and the batch is looked at. -/
  | row {r' : Run Row} {m : Msg} {row : Row} (hm : A.looks deserializer (some m) = true)
      (hb : r'.batch = r.batch.add row) (hl : r'.lastFlush = r.lastFlush) (ha : r'.archived = r.archived)
      (hc : r'.ctl = if (r.batch.add row).shouldFlush (now' - r.lastFlush) then .append .top else .top) :
      Checks A deserializer r now now' (some m) r'
  /-- The loop goes on without looking at the batch, or is left by an exception. -/
  | skip {r' : Run Row} {m : Msg} (hm : A.looks deserializer (some m) = false) (hb : r'.batch = r.batch)
      (hl : r'.lastFlush = r.lastFlush) (ha : r'.archived = r.archived)
      (hc : r'.ctl = .top ∨ r'.ctl = .closing false ∨ ∃ d p o, r'.ctl = .send d p o) :
      Checks A deserializer r now now' (some m) r'

theorem flush_eq {r : Run Row} {elapsed : ℤ} (h : r.batch.shouldFlush elapsed = true) (next : Next) :
    r.flush next = { r with ctl := .append next } := by
  have hctl : (r.flush next).ctl = .append next := flush_of_shouldFlush h next
  show { r with ctl := (r.flush next).ctl } = _
  rw [hctl]

theorem checks_data (A : Archiver Row) (deserializer : Deserializer) (r : Run Row) (p : ℤ) (o : ℕ)
    (value : Option Bytes) (now ts now' : ℤ) :
    Checks A deserializer r now now' (some ⟨none, some p, some o, value⟩)
      ({ r with lastActivity := now }.data A deserializer p o value now' ts) := by
  unfold data
  cases hv : A.decode (deserialize deserializer value) ⟨p, o, ts⟩ with
  | error d =>
    have hlooks : A.accepts deserializer value = false := A.accepts_of_error hv
    exact .skip hlooks rfl rfl rfl (Or.inr (Or.inr ⟨d, p, o, rfl⟩))
  | ok row =>
    have hlooks : A.accepts deserializer value = true := A.accepts_of_ok hv
    simp only
    split
    · rename_i hfull
      rw [flush_eq hfull]
      exact .row hlooks rfl rfl rfl (if_pos hfull).symm
    · rename_i hroom
      exact .row hlooks rfl rfl rfl (if_neg hroom).symm

/-- **On which poll results the loop looks at the time.** -/
theorem checks_poll (A : Archiver Row) (deserializer : Deserializer) (r : Run Row) (msg : Option Msg)
    (now ts now' : ℤ) : Checks A deserializer r now now' msg (r.poll A deserializer msg now ts now') := by
  match msg with
  | none =>
    simp only [Run.poll]
    split
    · rename_i hfull
      rw [flush_eq hfull]
      exact .idle rfl rfl rfl (if_pos hfull).symm
    · rename_i hroom
      exact .idle rfl rfl rfl (if_neg hroom).symm
  | some ⟨some .partitionEof, some p, o, v⟩ => exact .skip rfl rfl rfl rfl (Or.inl rfl)
  | some ⟨some .partitionEof, none, o, v⟩ => exact .skip rfl rfl rfl rfl (Or.inr (Or.inl rfl))
  | some ⟨some .other, p, o, v⟩ => exact .skip rfl rfl rfl rfl (Or.inr (Or.inl rfl))
  | some ⟨none, none, o, v⟩ => exact .skip rfl rfl rfl rfl (Or.inl rfl)
  | some ⟨none, some p, none, v⟩ => exact .skip rfl rfl rfl rfl (Or.inl rfl)
  | some ⟨none, some p, some o, v⟩ => exact checks_data A deserializer r p o v now ts now'

end Run

/-! ## An iteration -/

/-- What an iteration meets: the poll result and the readings of `Run.poll`, of a clock that does not go back,
then the readings at its effects and the live assignment. -/
structure Turn where
  deserializer : Deserializer
  msg : Option Msg
  now : ℤ
  ts : ℤ
  now' : ℤ
  clock : Fin 3 → ℤ
  assignment : List ℤ
  mono : now ≤ now'

namespace Run

/-- What the loop makes of the poll result of an iteration. -/
def polled (A : Archiver Row) (r : Run Row) (t : Turn) : Run Row :=
  r.poll A t.deserializer t.msg t.now t.ts t.now'

/-- The next effect of an iteration that is not over. -/
def effect (A : Archiver Row) (st : BronzeSettings) (assignment : List ℤ) (x : Run Row × List (Effect Row))
    (now : ℤ) : Run Row × List (Effect Row) :=
  if x.1.ctl.outside then x
  else ((x.1.go A st now assignment).1, x.2 ++ (x.1.go A st now assignment).2.toList)

/-- An iteration of the loop, with its effects. It has at most three. -/
def turn (A : Archiver Row) (st : BronzeSettings) (r : Run Row) (t : Turn) : Run Row × List (Effect Row) :=
  [t.clock 0, t.clock 1, t.clock 2].foldl (effect A st t.assignment) (r.polled A t, [])

/-- The loop: an iteration where its condition holds. -/
def loop (A : Archiver Row) (st : BronzeSettings) (r : Run Row) (t : Turn) : Run Row :=
  if r.ctl = .top ∧ r.goesOn st then (r.turn A st t).1 else r

variable {x : Run Row × List (Effect Row)} {assignment : List ℤ} {now : ℤ} {t : Turn}

theorem effect_outside (h : x.1.ctl.outside = true) : effect A st assignment x now = x := if_pos h

theorem effect_append {next : Next} (h : x.1.ctl = .append next) : effect A st assignment x now =
    ({ x.1 with ctl := .commit next }, x.2 ++ [.append x.1.batch.rows]) := by
  unfold effect go
  simp only [h]
  rfl

theorem effect_commit {next : Next} (h : x.1.ctl = .commit next) : effect A st assignment x now =
    ({ x.1 with
      archived := x.1.archived + x.1.batch.rows.length
      batch := x.1.batch.clear
      lastFlush := now
      ctl := next.ctl }, x.2 ++ [commitEffect x.1.batch.offsetItems]) := by
  unfold effect go
  simp only [h]
  rfl

variable (A st assignment x now) in
/-- The stop check. -/
theorem effect_idle (h : x.1.ctl = .idle) :
    (effect A st assignment x now).1.ctl.outside = true ∧
      (effect A st assignment x now).1.batch = x.1.batch ∧
      (effect A st assignment x now).1.lastFlush = x.1.lastFlush ∧ (effect A st assignment x now).2 = x.2 := by
  have hnot : ¬ x.1.ctl.outside = true := by
    rw [h]
    exact Bool.false_ne_true
  unfold effect go
  rw [if_neg hnot]
  simp only [h]
  split
  · rename_i hstop
    have hempty : x.1.batch.isEmpty = true := by
      rw [Bool.and_eq_true] at hstop
      exact hstop.1
    refine ⟨?_, rfl, rfl, List.append_nil _⟩
    simp only [flush, hempty, if_true]
    rfl
  · exact ⟨rfl, rfl, rfl, List.append_nil _⟩

/-- **An iteration that comes to a flush** appends its batch, and ends without one. -/
theorem turn_flush {next : Next} (hnext : next = .top ∨ next = .idle)
    (h : (r.polled A t).ctl = .append next) :
    (r.turn A st t).1.ctl.outside = true ∧ (r.turn A st t).1.batch.rows = [] ∧
      .append (r.polled A t).batch.rows ∈ (r.turn A st t).2 := by
  set p : Run Row := r.polled A t
  set q : Run Row := { p with
    archived := p.archived + p.batch.rows.length
    batch := p.batch.clear
    lastFlush := t.clock 1
    ctl := next.ctl }
  set es : List (Effect Row) := [.append p.batch.rows, commitEffect p.batch.offsetItems]
  have hturn : r.turn A st t = effect A st t.assignment (q, es) (t.clock 2) := by
    have happend : effect A st t.assignment (p, []) (t.clock 0) =
        ({ p with ctl := .commit next }, [.append p.batch.rows]) := effect_append h
    have hcommit : effect A st t.assignment ({ p with ctl := .commit next }, [.append p.batch.rows])
        (t.clock 1) = (q, es) := effect_commit rfl
    unfold turn
    rw [List.foldl_cons, List.foldl_cons, List.foldl_cons, List.foldl_nil, happend, hcommit]
  have hmem : .append p.batch.rows ∈ es := List.mem_cons_self
  rcases hnext with rfl | rfl
  · rw [hturn, effect_outside rfl]
    exact ⟨rfl, rfl, hmem⟩
  · obtain ⟨houtside, hbatch, -, heffects⟩ := effect_idle A st (q, es) t.assignment (t.clock 2) rfl
    rw [hturn, heffects, hbatch]
    exact ⟨houtside, rfl, hmem⟩

variable (A st assignment now) in
/-- No other effect touches the batch. -/
theorem effect_keeps (h : x.1.ctl.writes = false) :
    (effect A st assignment x now).1.ctl.writes = false ∧
      (effect A st assignment x now).1.batch = x.1.batch ∧
      (effect A st assignment x now).1.lastFlush = x.1.lastFlush := by
  by_cases hidle : x.1.ctl = .idle
  · obtain ⟨houtside, hbatch, hlast, -⟩ := effect_idle A st x assignment now hidle
    refine ⟨?_, hbatch, hlast⟩
    cases hc : (effect A st assignment x now).1.ctl with
    | append | commit =>
      rw [hc] at houtside
      cases houtside
    | _ => rfl
  · unfold effect go
    split
    · exact ⟨h, rfl, rfl⟩
    · rename_i hnot
      cases hc : x.1.ctl with
      | append | commit =>
        rw [hc] at h
        cases h
      | idle => exact absurd hc hidle
      | send | commitPast => exact ⟨rfl, rfl, rfl⟩
      | top | closing | done =>
        rw [hc] at hnot
        exact absurd rfl hnot

theorem foldl_keeps (h : x.1.ctl.writes = false) (nows : List ℤ) :
    (nows.foldl (effect A st assignment) x).1.batch = x.1.batch ∧
      (nows.foldl (effect A st assignment) x).1.lastFlush = x.1.lastFlush := by
  induction nows generalizing x with
  | nil => exact ⟨rfl, rfl⟩
  | cons now nows ih =>
    obtain ⟨hwrites, hbatch, hlast⟩ := effect_keeps A st assignment now h
    obtain ⟨hbatch', hlast'⟩ := ih hwrites
    exact ⟨hbatch'.trans hbatch, hlast'.trans hlast⟩

/-- **An iteration that does not come to a flush** keeps its batch. -/
theorem turn_keeps (h : (r.polled A t).ctl.writes = false) :
    (r.turn A st t).1.batch = (r.polled A t).batch ∧
      (r.turn A st t).1.lastFlush = (r.polled A t).lastFlush :=
  foldl_keeps (A := A) (x := (r.polled A t, [])) h _

/-! ## The time bound -/

/-- After the poll the batch holds rows, and the last flush is T seconds ago. -/
def Overdue (st : BronzeSettings) (r : Run Row) (t : Turn) : Prop :=
  r.batch.rows ≠ [] ∧ st.bronzeBatchMaxSeconds ≤ t.now - r.lastFlush

/-- The iteration appends the rows held, and ends with none. -/
def Flushes (A : Archiver Row) (st : BronzeSettings) (r : Run Row) (t : Turn) : Prop :=
  (r.turn A st t).1.ctl.outside = true ∧ (r.turn A st t).1.batch.rows = [] ∧
    ∃ rows, .append (r.batch.rows ++ rows) ∈ (r.turn A st t).2

/-- The time bound is enforced: an iteration that finds it passed flushes the batch. -/
def Enforced (A : Archiver Row) (st : BronzeSettings) (r : Run Row) (t : Turn) : Prop :=
  r.ctl = .top → r.goesOn st → Overdue st r t → Flushes A st r t

/-- A row is still held after an iteration only if its poll returned within T seconds of the last flush. -/
def Waits (A : Archiver Row) (st : BronzeSettings) (r : Run Row) (t : Turn) : Prop :=
  r.ctl = .top → r.goesOn st → (r.turn A st t).1.batch.rows ≠ [] →
    t.now - (r.turn A st t).1.lastFlush < st.bronzeBatchMaxSeconds

/-- A poll that finds the time bound passed returns nothing or a decodable message. -/
def Timely (A : Archiver Row) (st : BronzeSettings) (r : Run Row) (t : Turn) : Prop :=
  r.ctl = .top → r.goesOn st → Overdue st r t → A.looks t.deserializer t.msg

/-- The batch has the bounds of the settings. -/
structure Bounds (st : BronzeSettings) (r : Run Row) : Prop where
  maxRows : r.batch.maxRows = st.bronzeBatchMaxRows
  maxSeconds : r.batch.maxSeconds = st.bronzeBatchMaxSeconds

theorem Bounds.frame (h : Bounds st r) (hb : r'.batch = r.batch) : Bounds st r' :=
  ⟨by rw [hb, h.maxRows], by rw [hb, h.maxSeconds]⟩

theorem bounds_poll (h : Bounds st r) (deserializer : Deserializer) (msg : Option Msg) (now ts now' : ℤ) :
    Bounds st (r.poll A deserializer msg now ts now') := by
  have hchecks := checks_poll A deserializer r msg now ts now'
  generalize r.poll A deserializer msg now ts now' = r' at hchecks ⊢
  cases hchecks with
  | idle hb => exact h.frame hb
  | skip _ hb => exact h.frame hb
  | @row _ _ row _ hb =>
    have hmax : (r.batch.add row).maxRows = r.batch.maxRows := rfl
    have hsec : (r.batch.add row).maxSeconds = r.batch.maxSeconds := rfl
    exact ⟨by rw [hb, hmax, h.maxRows], by rw [hb, hsec, h.maxSeconds]⟩

theorem bounds_go (h : Bounds st r) (now : ℤ) (assignment : List ℤ) :
    Bounds st (r.go A st now assignment).1 := by
  unfold go
  cases r.ctl with
  | top | idle =>
    simp only
    split
    · exact h.frame rfl
    · exact h.frame rfl
  | commit next => exact ⟨h.maxRows, h.maxSeconds⟩
  | append | send | commitPast | closing | done => exact h.frame rfl

theorem bounds_loop (h : Bounds st r) (t : Turn) : Bounds st (r.loop A st t) := by
  have heffects : ∀ (nows : List ℤ) (x : Run Row × List (Effect Row)), Bounds st x.1 →
      Bounds st (nows.foldl (effect A st t.assignment) x).1 := by
    intro nows
    induction nows with
    | nil => exact fun x hx => hx
    | cons now nows ih =>
      intro x hx
      refine ih _ ?_
      unfold effect
      split
      · exact hx
      · exact bounds_go hx now t.assignment
  unfold loop
  split
  · exact heffects _ _ (bounds_poll h _ _ _ _ _)
  · exact h

/-- An iteration that looks at the time flushes, or holds rows for less than T seconds; one that does not
keeps its batch. -/
theorem turn_cases (h : Bounds st r) (t : Turn) :
    (A.looks t.deserializer t.msg = true ∧ Flushes A st r t) ∨
      (r.turn A st t).1.lastFlush = r.lastFlush ∧
        (∃ rows, (r.turn A st t).1.batch.rows = r.batch.rows ++ rows ∧
          (A.looks t.deserializer t.msg = false → rows = [])) ∧
        (A.looks t.deserializer t.msg = true → (r.turn A st t).1.batch.rows ≠ [] →
          t.now - r.lastFlush < st.bronzeBatchMaxSeconds) := by
  have hT := h.maxSeconds
  have hmono := t.mono
  have hchecks : Checks A t.deserializer r t.now t.now' t.msg (r.polled A t) := checks_poll ..
  generalize hm : t.msg = msg at hchecks
  cases hchecks with
  | idle hb hl ha hc =>
    by_cases hfull : r.batch.shouldFlush (t.now - r.lastFlush) = true
    · rw [if_pos hfull] at hc
      obtain ⟨houtside, hempty, happend⟩ := turn_flush (Or.inr rfl) hc
      refine Or.inl ⟨rfl, houtside, hempty, [], ?_⟩
      rw [List.append_nil, ← hb]
      exact happend
    · rw [if_neg hfull] at hc
      obtain ⟨hbatch, hlast⟩ := turn_keeps (A := A)  (r := r) (t := t) (by rw [hc]; rfl)
      rw [hb] at hbatch
      refine Or.inr ⟨hlast.trans hl, ⟨[], ?_, fun _ => rfl⟩, fun _ hrows => ?_⟩
      · rw [hbatch, List.append_nil]
      · rw [hbatch] at hrows
        rw [Batch.shouldFlush_iff] at hfull
        by_contra hlate
        exact hfull ⟨hrows, Or.inr (by omega)⟩
  | @row _ m row hlooks hb hl ha hc =>
    by_cases hfull : (r.batch.add row).shouldFlush (t.now' - r.lastFlush) = true
    · rw [if_pos hfull] at hc
      obtain ⟨houtside, hempty, happend⟩ := turn_flush (Or.inl rfl) hc
      refine Or.inl ⟨hlooks, houtside, hempty, [row], ?_⟩
      rw [← Batch.add_rows, ← hb]
      exact happend
    · rw [if_neg hfull] at hc
      obtain ⟨hbatch, hlast⟩ := turn_keeps (A := A)  (r := r) (t := t) (by rw [hc]; rfl)
      rw [hb] at hbatch
      refine Or.inr ⟨hlast.trans hl, ⟨[row], ?_, ?_⟩, fun _ hrows => ?_⟩
      · rw [hbatch, Batch.add_rows]
      · rw [hlooks]
        rintro ⟨⟩
      · rw [hbatch] at hrows
        rw [Batch.shouldFlush_iff] at hfull
        have hsec : (r.batch.add row).maxSeconds = r.batch.maxSeconds := rfl
        by_contra hlate
        exact hfull ⟨hrows, Or.inr (by omega)⟩
  | skip hlooks hb hl ha hc =>
    have hwrites : (r.polled A t).ctl.writes = false := by
      rcases hc with hc | hc | ⟨d, p, o, hc⟩ <;> rw [hc] <;> rfl
    obtain ⟨hbatch, hlast⟩ := turn_keeps (A := A)  hwrites
    refine Or.inr ⟨hlast.trans hl, ⟨[], ?_, fun _ => rfl⟩, ?_⟩
    · rw [hbatch, hb, List.append_nil]
    · rw [hlooks]
      rintro ⟨⟩

/-- **The time bound is enforced where the loop looks at the time**, and nowhere else. -/
theorem enforced_iff_timely (h : Bounds st r) : Enforced A st r t ↔ Timely A st r t := by
  refine forall₂_congr fun _ _ => forall_congr' fun hdue => ?_
  obtain ⟨hrows, hage⟩ := hdue
  constructor
  · rintro ⟨-, hempty, -⟩
    rcases turn_cases h t with ⟨hlooks, -⟩ | ⟨-, ⟨rows, hkept, -⟩, -⟩
    · exact hlooks
    · rw [hkept] at hempty
      exact absurd (List.append_eq_nil_iff.1 hempty).1 hrows
  · intro hlooks
    rcases turn_cases h t with ⟨-, hflushes⟩ | ⟨-, ⟨rows, hkept, -⟩, hyoung⟩
    · exact hflushes
    · have hheld : (r.turn A st t).1.batch.rows ≠ [] := by
        rw [hkept]
        exact fun hnil => hrows (List.append_eq_nil_iff.1 hnil).1
      have := hyoung hlooks hheld
      omega

/-- **Rows wait no longer than T seconds and one poll** under the same condition. -/
theorem waits_iff_timely (h : Bounds st r) : Waits A st r t ↔ Timely A st r t := by
  refine forall₂_congr fun _ _ => ?_
  constructor
  · rintro hwaits ⟨hrows, hage⟩
    rcases turn_cases h t with ⟨hlooks, -⟩ | ⟨hlast, ⟨rows, hkept, -⟩, -⟩
    · exact hlooks
    · have hheld : (r.turn A st t).1.batch.rows ≠ [] := by
        rw [hkept]
        exact fun hnil => hrows (List.append_eq_nil_iff.1 hnil).1
      have := hwaits hheld
      omega
  · intro htimely hheld
    rcases turn_cases h t with ⟨-, -, hempty, -⟩ | ⟨hlast, ⟨rows, hkept, hnone⟩, hyoung⟩
    · exact absurd hempty hheld
    · rw [hlast]
      cases hlooks : A.looks t.deserializer t.msg with
      | true => exact hyoung hlooks hheld
      | false =>
        rw [hkept, hnone hlooks, List.append_nil] at hheld
        by_contra hlate
        have := htimely ⟨hheld, not_lt.1 hlate⟩
        rw [hlooks] at this
        cases this

end Run

/-- **The time bound on held rows, exactly.** In any run of an archiver, every iteration that finds its batch
older than T seconds after the poll flushes it, exactly when every such poll returned nothing or a decodable
message; and no row is held beyond T seconds and one poll exactly when that is so. -/
theorem held_time_iff (A : Archiver Row) (st : BronzeSettings) (now now' : ℤ) (ts : List Turn) :
    (Trace.Along (Run.loop A st) (Run.Enforced A st) (.init st now now') ts ↔
        Trace.Along (Run.loop A st) (Run.Timely A st) (.init st now now') ts) ∧
      (Trace.Along (Run.loop A st) (Run.Waits A st) (.init st now now') ts ↔
        Trace.Along (Run.loop A st) (Run.Timely A st) (.init st now now') ts) := by
  have hinit : Run.Bounds st (.init st now now' : Run Row) := ⟨rfl, rfl⟩
  have hstep : ∀ r t, Run.Bounds st r → Run.Bounds st (r.loop A st t) := fun _ t h => Run.bounds_loop h t
  refine ⟨⟨?_, ?_⟩, ?_, ?_⟩
  · exact Trace.along_imp_inv (fun _ _ h => (Run.enforced_iff_timely h).1) (fun _ _ _ => hstep _ _) hinit
  · exact Trace.along_imp_inv (fun _ _ h => (Run.enforced_iff_timely h).2) (fun _ _ _ => hstep _ _) hinit
  · exact Trace.along_imp_inv (fun _ _ h => (Run.waits_iff_timely h).1) (fun _ _ _ => hstep _ _) hinit
  · exact Trace.along_imp_inv (fun _ _ h => (Run.waits_iff_timely h).2) (fun _ _ _ => hstep _ _) hinit

/-- A post is read, and the partition ends ten seconds later. -/
def postThenEof : List Turn :=
  [⟨postDeserializer, messageAt 0 postBytes, 0, 0, 0, fun _ => 0, [], le_rfl⟩,
    ⟨postDeserializer, some ⟨some .partitionEof, some 0, none, none⟩, 10000000000, 0, 10000000000,
      fun _ => 10000000000, [], le_rfl⟩]

/-- **The post is still held** after the second poll, with a time bound of five seconds. -/
theorem post_held_past_bound :
    ¬ Trace.Along (Run.loop (postsBronze asciiHost defaultSettings) defaultSettings)
      (Run.Enforced (postsBronze asciiHost defaultSettings) defaultSettings) (.init defaultSettings 0 0)
      postThenEof := by
  rintro ⟨-, h, -⟩
  obtain ⟨-, hempty, -⟩ := h (by decide) (by decide) ⟨by decide, by decide⟩
  exact absurd hempty (by decide)

end BlueskyTrends
