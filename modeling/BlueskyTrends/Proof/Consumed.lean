import BlueskyTrends.Proof.ArchiverStep

/-!
# What a run archives

A run's rows go through its batch, which is flushed at four points. `Journal` is a run with what it has taken
and sent so far, `Balanced` what they say of its table and its counters.

* `balanced_poll`, `balanced_go`: what one step keeps.
* `run_archives_taken`: **a run that returns has archived exactly what it took**, and quarantined the rest.
-/

namespace BlueskyTrends

variable {Row : Type} [KafkaRow Row] {A : Archiver Row} {deserializer : Deserializer} {st : BronzeSettings}
  {log : KafkaLog} {r r' : Run Row} {T appended : List Row} {taken : List (Taken Row)} {sent : List Envelope}

/-! ## Records taken -/

/-- The rows of the decodable records taken. -/
def decodedRows (taken : List (Taken Row)) : List Row := taken.filterMap fun x => x.outcome.toOption

/-- The envelope of a record, if it is undecodable. -/
def Taken.envelope (A : Archiver Row) (x : Taken Row) : Option Envelope :=
  match x.outcome with
  | .ok _ => none
  | .error d => some ⟨d, A.topic, x.partition, x.offset⟩

/-- The envelopes of the undecodable records taken. -/
def envelopes (A : Archiver Row) (taken : List (Taken Row)) : List Envelope := taken.filterMap (Taken.envelope A)

omit [KafkaRow Row] in
theorem decodedRows_append (xs ys : List (Taken Row)) :
    decodedRows (xs ++ ys) = decodedRows xs ++ decodedRows ys := List.filterMap_append

theorem envelopes_append (xs ys : List (Taken Row)) :
    envelopes A (xs ++ ys) = envelopes A xs ++ envelopes A ys := List.filterMap_append

/-! ## One run -/

/-- No row and no envelope is on its way. -/
def Ctl.settled : Ctl → Bool
  | .commit _ | .send _ _ _ => false
  | _ => true

theorem Ctl.flushes_settled {c : Ctl} (h : c.settled = true) : c.flushes = false := by
  cases c with
  | commit => cases h
  | _ => rfl

namespace Run

/-- The rows held that are not in the table yet. -/
def held (r : Run Row) : List Row := if r.ctl.flushes then [] else r.batch.rows

/-- The rows in the table that are not counted yet. -/
def uncounted (r : Run Row) : ℕ := if r.ctl.flushes then r.batch.rows.length else 0

/-- The envelope in hand. -/
def letter (A : Archiver Row) (r : Run Row) : List Envelope :=
  match r.ctl with
  | .send d p o => [⟨d, A.topic, p, o⟩]
  | _ => []

/-- What a run has taken, appended and sent, and what it still holds. -/
structure Balanced (A : Archiver Row) (st : BronzeSettings) (r : Run Row) (taken : List (Taken Row))
    (appended : List Row) (sent : List Envelope) : Prop where
  rows : appended ++ r.held = decodedRows taken
  letters : sent ++ r.letter A = envelopes A taken
  count : r.archived + r.uncounted = appended.length
  cap : (r.archived : ℤ) + r.batch.rows.length ≤ st.bronzeMaxRowsPerRun
  drained : r.ctl.returning → r.batch.rows = []

theorem held_calm (h : r.ctl.flushes = false) : r.held = r.batch.rows := by simp [held, h]

theorem uncounted_calm (h : r.ctl.flushes = false) : r.uncounted = 0 := by simp [uncounted, h]

theorem held_flushing (h : r.ctl.flushes = true) : r.held = [] := by simp [held, h]

theorem uncounted_flushing (h : r.ctl.flushes = true) : r.uncounted = r.batch.rows.length := by
  simp [uncounted, h]

theorem letter_settled (h : r.ctl.settled = true) : r.letter A = [] := by
  unfold letter
  cases hc : r.ctl with
  | send d p o =>
    rw [hc] at h
    cases h
  | _ => rfl

namespace Balanced

/-- Where no row and no envelope is on its way, the books are those of the batch. -/
theorem of_settled (hs : r.ctl.settled) (hrows : appended ++ r.batch.rows = decodedRows taken)
    (hsent : sent = envelopes A taken) (hcount : r.archived = appended.length)
    (hcap : (r.archived : ℤ) + r.batch.rows.length ≤ st.bronzeMaxRowsPerRun)
    (hdrained : r.ctl.returning → r.batch.rows = []) : Balanced A st r taken appended sent where
  rows := by
    rw [held_calm (Ctl.flushes_settled hs)]
    exact hrows
  letters := by
    rw [letter_settled hs, List.append_nil]
    exact hsent
  count := by
    rw [uncounted_calm (Ctl.flushes_settled hs)]
    exact hcount
  cap := hcap
  drained := hdrained

theorem rows_eq (h : Balanced A st r taken appended sent) (hf : r.ctl.flushes = false) :
    appended ++ r.batch.rows = decodedRows taken := by
  have hrows := h.rows
  rwa [held_calm hf] at hrows

theorem sent_eq (h : Balanced A st r taken appended sent) (hs : r.ctl.settled) : sent = envelopes A taken := by
  have hletters := h.letters
  rwa [letter_settled hs, List.append_nil] at hletters

theorem count_eq (h : Balanced A st r taken appended sent) (hf : r.ctl.flushes = false) :
    r.archived = appended.length := by
  have hcount := h.count
  rwa [uncounted_calm hf, Nat.add_zero] at hcount

theorem init (hmax : 0 ≤ st.bronzeMaxRowsPerRun) (now now' : ℤ) :
    Balanced A st (.init st now now') [] [] [] where
  rows := rfl
  letters := rfl
  count := rfl
  cap := by simpa [Run.init, Batch.init] using hmax
  drained := fun _ => rfl

/-- A step that takes nothing and has no effect. -/
theorem frame (h : Balanced A st r taken appended sent) (hs : r.ctl.settled) (hs' : r'.ctl.settled)
    (hb : r'.batch = r.batch) (ha : r'.archived = r.archived) (hret : r'.ctl.returning → r.batch.rows = []) :
    Balanced A st r' taken appended sent := by
  have hf := Ctl.flushes_settled hs
  refine of_settled hs' ?_ (h.sent_eq hs) ?_ ?_ ?_
  · rw [hb]
    exact h.rows_eq hf
  · rw [ha]
    exact h.count_eq hf
  · rw [hb, ha]
    exact h.cap
  · intro hr
    rw [hb]
    exact hret hr

/-- `flush()`, up to its first effect. -/
theorem flush (h : Balanced A st r taken appended sent) (hs : r.ctl.settled) (next : Next) :
    Balanced A st (r.flush next) taken appended sent := by
  refine h.frame hs ?_ rfl rfl fun hret => Run.flush_returning hret
  unfold Run.flush
  split
  · cases next <;> rfl
  · rfl

/-- A record that does not decode is in hand. -/
theorem reject (h : Balanced A st r taken appended sent) (ht : r.ctl = .top) {p : ℤ} {o : ℕ} {d : DlqRow}
    (hb : r'.batch = r.batch) (ha : r'.archived = r.archived) (hc : r'.ctl = .send d p o) :
    Balanced A st r' (taken ++ [⟨p, o, .error d⟩]) appended sent where
  rows := by
    have hrows := h.rows_eq (by rw [ht]; rfl)
    rw [held_calm (by rw [hc]; rfl), hb, decodedRows_append, hrows]
    exact (List.append_nil _).symm
  letters := by
    have hsent := h.sent_eq (by rw [ht]; rfl)
    rw [envelopes_append, ← hsent, letter, hc]
    rfl
  count := by
    have hcount := h.count_eq (by rw [ht]; rfl)
    rw [uncounted_calm (by rw [hc]; rfl), ha, hcount, Nat.add_zero]
  cap := by
    rw [hb, ha]
    exact h.cap
  drained := by
    rw [hc]
    rintro ⟨⟩

/-- A row is held, below the cap as the loop goes on. -/
theorem accept (h : Balanced A st r taken appended sent) (ht : r.ctl = .top) (hgo : r.goesOn st = true)
    {p : ℤ} {o : ℕ} {row : Row} (hb : r'.batch = r.batch.add row) (ha : r'.archived = r.archived)
    (hc : r'.ctl = .top ∨ r'.ctl = .append .top) :
    Balanced A st r' (taken ++ [⟨p, o, .ok row⟩]) appended sent := by
  have hs' : r'.ctl.settled := by rcases hc with hc | hc <;> rw [hc] <;> rfl
  have hrows := h.rows_eq (by rw [ht]; rfl)
  have hsent := h.sent_eq (by rw [ht]; rfl)
  have hroom : (r.archived : ℤ) + r.batch.rows.length < st.bronzeMaxRowsPerRun := of_decide_eq_true hgo
  refine of_settled hs' ?_ ?_ ?_ ?_ ?_
  · rw [hb, Batch.add_rows, decodedRows_append, ← hrows, List.append_assoc]
    rfl
  · rw [envelopes_append, ← hsent]
    exact (List.append_nil _).symm
  · rw [ha]
    exact h.count_eq (by rw [ht]; rfl)
  · rw [hb, ha, Batch.add_rows, List.length_append, List.length_singleton]
    push_cast
    omega
  · rcases hc with hc | hc <;> rw [hc] <;> rintro ⟨⟩

/-- The rows of the batch are in the table, and not counted yet. -/
theorem append (h : Balanced A st r taken appended sent) {next : Next} (ht : r.ctl = .append next) :
    Balanced A st { r with ctl := .commit next } taken (appended ++ r.batch.rows) sent where
  rows := by
    rw [held_flushing rfl, List.append_nil]
    exact h.rows_eq (by rw [ht]; rfl)
  letters := by
    have hsent := h.sent_eq (by rw [ht]; rfl)
    exact (List.append_nil _).trans hsent
  count := by
    have hcount := h.count_eq (by rw [ht]; rfl)
    rw [uncounted_flushing rfl, List.length_append, hcount]
  cap := h.cap
  drained := by rintro ⟨⟩

/-- They are counted, and the batch is empty. -/
theorem commit (h : Balanced A st r taken appended sent) {next : Next} (ht : r.ctl = .commit next)
    (now : ℤ) : Balanced A st { r with
      archived := r.archived + r.batch.rows.length
      batch := r.batch.clear
      lastFlush := now
      ctl := next.ctl } taken appended sent := by
  have hflush : r.ctl.flushes = true := by rw [ht]; rfl
  have hs' : next.ctl.settled := by cases next <;> rfl
  have hrows := h.rows
  have hletters := h.letters
  have hcount := h.count
  have hcap := h.cap
  rw [held_flushing hflush] at hrows
  rw [letter, ht, List.append_nil] at hletters
  rw [uncounted_flushing hflush] at hcount
  refine of_settled hs' hrows hletters hcount ?_ ?_
  · simp only [Batch.clear_rows, List.length_nil]
    push_cast
    omega
  · intro _
    rfl

/-- The envelope in hand is sent. -/
theorem send (h : Balanced A st r taken appended sent) {d : DlqRow} {p : ℤ} {o : ℕ}
    (ht : r.ctl = .send d p o) (n : ℕ) :
    Balanced A st { r with dlqCount := n, ctl := .commitPast p o } taken appended
      (sent ++ [⟨d, A.topic, p, o⟩]) := by
  have hf : r.ctl.flushes = false := by rw [ht]; rfl
  have hletters := h.letters
  rw [letter, ht] at hletters
  exact of_settled rfl (h.rows_eq hf) hletters (h.count_eq hf) h.cap (by rintro ⟨⟩)

end Balanced

/-- The rows an effect appends. -/
def appends : Option (Effect Row) → List Row
  | some (.append rows) => rows
  | _ => []

/-- The envelope an effect sends. -/
def sends : Option (Effect Row) → List Envelope
  | some (.send e) => [e]
  | _ => []

/-- **What a poll result adds.** -/
theorem balanced_poll (h : Balanced A st r taken appended sent) (ht : r.ctl = .top)
    (hgo : r.goesOn st = true) (msg : Option Msg) (now ts now' : ℤ) :
    Balanced A st (r.poll A deserializer msg now ts now') (taken ++ BlueskyTrends.taken A deserializer ts msg)
      appended sent := by
  have hpolled := Run.polled_poll A deserializer r msg now ts now'
  generalize r.poll A deserializer msg now ts now' = r' at hpolled ⊢
  generalize BlueskyTrends.taken A deserializer ts msg = ys at hpolled ⊢
  cases hpolled with
  | quiet hb ha hc =>
    rw [List.append_nil]
    refine h.frame (by rw [ht]; rfl) ?_ hb ha ?_
    · rcases hc with hc | hc | hc | hc <;> rw [hc] <;> rfl
    · rcases hc with hc | hc | hc | hc <;> rw [hc] <;> rintro ⟨⟩
  | reject hb ha hc => exact h.reject ht hb ha hc
  | accept hb ha hc =>
    refine h.accept ht hgo hb ha ?_
    rcases hc with hc | ⟨hc, -⟩
    · exact Or.inr hc
    · exact Or.inl hc

/-- **What an effect adds.** -/
theorem balanced_go (h : Balanced A st r taken appended sent) (now : ℤ) (assignment : List ℤ) :
    Balanced A st (r.go A st now assignment).1 taken (appended ++ appends (r.go A st now assignment).2)
      (sent ++ sends (r.go A st now assignment).2) := by
  have hnil : ∀ {r' : Run Row}, Balanced A st r' taken appended sent →
      Balanced A st r' taken (appended ++ []) (sent ++ []) := by
    intro r' h'
    rw [List.append_nil, List.append_nil]
    exact h'
  unfold Run.go
  cases ht : r.ctl with
  | top =>
    simp only
    split
    · exact hnil h
    · exact hnil (h.flush (by rw [ht]; rfl) .closing)
  | append next =>
    simp only [sends, List.append_nil]
    exact h.append ht
  | commit next => exact hnil (h.commit ht now)
  | idle =>
    simp only
    split
    · exact hnil (h.flush (by rw [ht]; rfl) .closing)
    · exact hnil (h.frame (by rw [ht]; rfl) rfl rfl rfl (by rintro ⟨⟩))
  | send d p o =>
    simp only [appends, List.append_nil]
    exact h.send ht _
  | commitPast p o => exact hnil (h.frame (by rw [ht]; rfl) rfl rfl rfl (by rintro ⟨⟩))
  | closing returned =>
    refine hnil (h.frame (by rw [ht]; rfl) rfl rfl rfl ?_)
    intro hret
    refine h.drained ?_
    rw [ht]
    cases returned <;> exact hret
  | done returned => exact hnil h

/-- A run that has raised does not go on. -/
theorem failed_go (hf : r.ctl.failed = true) (now : ℤ) (assignment : List ℤ) :
    (r.go A st now assignment).1.ctl.failed = true := by
  unfold Run.go
  cases ht : r.ctl with
  | closing returned =>
    rw [ht] at hf
    cases returned <;> exact hf
  | done returned =>
    simp only
    exact hf
  | _ =>
    rw [ht] at hf
    cases hf

end Run

/-! ## Runs -/

/-- A run with what it has taken and sent so far. -/
structure Journal (Row : Type) [KafkaRow Row] where
  world : World Row
  taken : List (Taken Row)
  sent : List Envelope

namespace Journal

variable (A : Archiver Row) (st : BronzeSettings) (log : KafkaLog)

def start (w : World Row) (now now' : ℤ) : Journal Row := ⟨w.start st now now', [], []⟩

/-- The records a step takes. -/
def takes (deserializer : Deserializer) (w : World Row) : World.RunAct → List (Taken Row)
  | .poll msg _ ts _ => match w.run with
    | some r =>
      if r.ctl = .top ∧ r.goesOn st ∧ ∀ m ∈ msg, World.deliverable log w.position m then
        BlueskyTrends.taken A deserializer ts msg
      else []
    | none => []
  | _ => []

/-- The envelopes a step sends. -/
def sends (w : World Row) : World.RunAct → List Envelope
  | .go now assignment => match w.run with
    | some r => Run.sends (r.go A st now assignment).2
    | none => []
  | _ => []

/-- A step of the run. -/
def step (j : Journal Row) (x : Deserializer × World.RunAct) : Journal Row where
  world := j.world.stepWith A st log x
  taken := j.taken ++ takes A st log x.1 j.world x.2
  sent := j.sent ++ sends A st j.world x.2

/-- What the run in progress has taken and sent is in its books, unless it has raised. -/
def Balanced (T : List Row) (j : Journal Row) : Prop :=
  ∀ r, j.world.run = some r → r.ctl.failed = false →
    ∃ appended, j.world.table = T ++ appended ∧ r.Balanced A st j.taken appended j.sent

variable {A st log}

theorem balanced_start (hmax : 0 ≤ st.bronzeMaxRowsPerRun) (w : World Row) (now now' : ℤ) :
    (start st w now now').Balanced A st w.table := by
  intro r hr _
  obtain rfl := Option.some.inj hr
  exact ⟨[], (List.append_nil _).symm, .init hmax now now'⟩

theorem table_apply (w : World Row) (e : Option (Effect Row)) : (w.apply e).table = w.table ++ Run.appends e := by
  cases e with
  | none => exact (List.append_nil _).symm
  | some e =>
    cases e with
    | append rows => rfl
    | commit offsets => exact (List.append_nil _).symm
    | send e => exact (List.append_nil _).symm

/-- **A step keeps the books.** -/
theorem balanced_step {j : Journal Row} (h : j.Balanced A st T) (x : Deserializer × World.RunAct) :
    (step A st log j x).Balanced A st T := by
  obtain ⟨D, a⟩ := x
  intro r' hr' hf
  obtain ⟨w, ys, es⟩ := j
  cases hrun : w.run with
  | none =>
    have hnone : (w.runStep A D st log a).run = none := by
      cases a with
      | report i success => exact (World.report_frame w i success).1.trans hrun
      | _ => simp only [World.runStep, hrun]
    simp only [step, World.stepWith] at hr'
    rw [hnone] at hr'
    cases hr'
  | some r =>
    have hbooks := fun hf' => h r hrun hf'
    cases a with
    | poll msg now ts now' =>
      simp only [step, World.stepWith, World.runStep, takes, sends, hrun] at hr' ⊢
      split at hr'
      · rename_i hok
        obtain rfl := Option.some.inj hr'
        obtain ⟨appended, htable, hbal⟩ := hbooks (by rw [hok.1]; rfl)
        rw [if_pos hok, if_pos hok, List.append_nil]
        exact ⟨appended, htable, Run.balanced_poll hbal hok.1 hok.2.1 msg now ts now'⟩
      · rename_i hno
        obtain rfl := Option.some.inj (hrun.symm.trans hr')
        rw [if_neg hno, if_neg hno, List.append_nil, List.append_nil]
        exact hbooks hf
    | go now assignment =>
      simp only [step, World.stepWith, World.runStep, takes, sends, hrun, List.append_nil] at hr' ⊢
      obtain rfl := Option.some.inj hr'
      have hf' : r.ctl.failed = false := by
        by_contra hr
        rw [Run.failed_go (Bool.not_eq_false _ ▸ hr) now assignment] at hf
        cases hf
      obtain ⟨appended, htable, hbal⟩ := hbooks hf'
      have htable' : (w.apply (r.go A st now assignment).2).table =
          T ++ (appended ++ Run.appends (r.go A st now assignment).2) := by
        rw [table_apply, htable, List.append_assoc]
      exact ⟨_, htable', Run.balanced_go hbal now assignment⟩
    | raise =>
      simp only [step, World.stepWith, World.runStep, hrun] at hr'
      obtain rfl := Option.some.inj hr'
      rw [(World.raise_ctl r).2.2] at hf
      cases hf
    | report i success =>
      obtain ⟨hrun', htable'⟩ := World.report_frame w i success
      simp only [step, World.stepWith, World.runStep, takes, sends, List.append_nil] at hr' ⊢
      obtain rfl := Option.some.inj (hrun.symm.trans (hrun'.symm.trans hr'))
      rw [htable']
      exact hbooks hf

variable (A st log) in
/-- **A run that returns has archived exactly what it took.** Whatever it polls and whatever it makes of each
record: the rows it has appended are the decodable records it took, each once and in order, the dead letters it
has sent the undecodable ones, and it has counted its rows, within its cap. -/
theorem run_archives_taken (hmax : 0 ≤ st.bronzeMaxRowsPerRun) (w : World Row) (now now' : ℤ)
    (as : List (Deserializer × World.RunAct)) {r : Run Row} :
    let j := Trace.run (step A st log) (start st w now now') as
    j.world.run = some r → r.ctl = .done true →
      j.world.table = w.table ++ decodedRows j.taken ∧ j.sent = envelopes A j.taken ∧
      r.archived = (decodedRows j.taken).length ∧ (r.archived : ℤ) ≤ st.bronzeMaxRowsPerRun := by
  intro j hr hdone
  have hbooks : j.Balanced A st w.table :=
    Trace.run_inv (I := fun j : Journal Row => j.Balanced A st w.table) (fun _ x h => balanced_step h x)
      (balanced_start hmax w now now') as
  obtain ⟨appended, htable, hbal⟩ := hbooks r hr (by rw [hdone]; rfl)
  have hs : r.ctl.settled := by rw [hdone]; rfl
  have hf := Ctl.flushes_settled hs
  have hdrained := hbal.drained (by rw [hdone]; rfl)
  have hrows : appended = decodedRows j.taken := by
    rw [← hbal.rows_eq hf, hdrained, List.append_nil]
  have hletters := hbal.sent_eq hs
  have hcount := hbal.count_eq hf
  have hcap := hbal.cap
  refine ⟨?_, hletters, ?_, ?_⟩
  · rw [htable, hrows]
  · rw [hcount, hrows]
  · omega

end Journal

/-- A post and a value without a schema id are read, the partition ends, and the post is flushed by age. -/
def postAndReject : List (Deserializer × World.RunAct) :=
  [.poll (messageAt 0 postBytes) 0 1 0, .poll (messageAt 1 []) 0 1 0, .go 0 [], .go 0 [],
    .poll (some ⟨some .partitionEof, some 0, none, none⟩) 0 1 0, .poll none 6000000000 1 0, .go 0 [],
    .go 6000000000 [], .go 6000000000 [0], .go 0 []].map fun a => (postDeserializer, a)

/-- Its journal, from an empty table. -/
def postJournal : Journal BronzeRow :=
  Trace.run (Journal.step (postsBronze asciiHost defaultSettings) defaultSettings (topicOf [postBytes, []]))
    (.start defaultSettings (.init [] fun _ => 0) 0 0) postAndReject

theorem run_archives_taken_mixed : ∃ r, postJournal.world.run = some r ∧ r.ctl = .done true ∧
    postJournal.world.table = [] ++ decodedRows postJournal.taken ∧
    postJournal.sent = envelopes (postsBronze asciiHost defaultSettings) postJournal.taken ∧
    r.archived = (decodedRows postJournal.taken).length ∧
    (r.archived : ℤ) ≤ defaultSettings.bronzeMaxRowsPerRun := by
  have hdone : postJournal.world.run.map Run.ctl = some (.done true) := by decide
  obtain ⟨r, hr, ht⟩ := Option.map_eq_some_iff.1 hdone
  exact ⟨r, hr, ht, Journal.run_archives_taken (postsBronze asciiHost defaultSettings) defaultSettings
    (topicOf [postBytes, []]) (by decide) (.init [] fun _ => 0) 0 0 postAndReject hr ht⟩

end BlueskyTrends
