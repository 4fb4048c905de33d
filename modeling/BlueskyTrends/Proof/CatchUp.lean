import BlueskyTrends.Proof.Drained
import BlueskyTrends.Proof.Overlap

/-!
# Successive runs

A run that returns leaves the committed offsets past every row it has appended, so the next run
takes up where it ended: over any number of them each decodable record is archived once. A run that
neither hits its row cap nor finds the topic drained is one the idle ceiling has stopped; without
it, the runs catch up with any backlog.

* `logged_step`: what a run has taken are the records it has passed, each once.
* `gained_run`, `runs_archive_once`: **each record is archived exactly once**, over one run and over
  many.
* `leaves_step`: what a run that leaves its loop has done.
* `ends_progress`: such a run has archived its cap, or all there is.
* `runs_catch_up`: **enough runs archive all of a backlog.**
-/

namespace BlueskyTrends

variable {Row : Type} [KafkaRow Row] {A : Archiver Row} {deserializer : Deserializer} {st : BronzeSettings}
  {log : KafkaLog} {c₀ : ℤ → ℕ} {w w' w'' : World Row} {r r' : Run Row} {j : Journal Row} {p : ℤ} {o : ℕ}

/-! ## What a run has taken -/

/-- The record a message is of. -/
def Taken.place (x : Taken Row) : ℤ × ℕ := (x.partition, x.offset)

/-- What a run from the offsets `c₀` has taken: the records it has passed, each once, decoded as
they are. -/
structure Logged (A : Archiver Row) (deserializer : Deserializer) (log : KafkaLog) (c₀ : ℤ → ℕ) (j : Journal Row) :
    Prop where
  floor : ∀ p, c₀ p ≤ j.world.position p
  outcome : ∀ x ∈ j.taken, ∃ value ts, log x.partition x.offset = some value ∧
    x.outcome = A.decode (deserialize deserializer value) ⟨x.partition, x.offset, ts⟩
  nodup : (j.taken.map Taken.place).Nodup
  mem : ∀ p o, (p, o) ∈ j.taken.map Taken.place ↔ log p o ≠ none ∧ c₀ p ≤ o ∧ o < j.world.position p

theorem logged_start (w : World Row) (now now' : ℤ) :
    Logged A deserializer log w.committed (.start st w now now') where
  floor := fun _ => le_rfl
  outcome := by simp [Journal.start]
  nodup := List.nodup_nil
  mem := by
    intro p o
    have hnone : ¬ (w.committed p ≤ o ∧ o < w.committed p) := by omega
    constructor
    · rintro ⟨⟩
    · exact fun h => absurd h.2 hnone

/-- A record delivered is new, and the next of its partition. -/
theorem Logged.record (h : Logged A deserializer log c₀ j) {j' : Journal Row} {value : Option Bytes} {ts : ℤ}
    (hd : World.Delivers log j.world p o value)
    (hp : j'.world.position = Function.update j.world.position p (o + 1))
    (ht : j'.taken = j.taken ++ [⟨p, o, A.decode (deserialize deserializer value) ⟨p, o, ts⟩⟩]) :
    Logged A deserializer log c₀ j' where
  floor := by
    intro q
    rw [hp]
    exact (h.floor q).trans (World.le_update hd.le q)
  outcome := by
    intro x hx
    rw [ht] at hx
    rcases List.mem_append.1 hx with hx | hx
    · exact h.outcome x hx
    · obtain rfl := List.mem_singleton.1 hx
      exact ⟨value, ts, hd.record, rfl⟩
  nodup := by
    have hnew : (p, o) ∉ j.taken.map Taken.place := by
      intro hmem
      have hlt := ((h.mem p o).1 hmem).2.2
      have hle := hd.le
      omega
    rw [ht, List.map_append]
    refine h.nodup.append (List.nodup_singleton _) ?_
    intro x hx hx'
    obtain rfl := List.mem_singleton.1 hx'
    exact hnew hx
  mem := by
    intro q o'
    have hold := h.mem q o'
    have hfloor := h.floor q
    have hle := hd.le
    rw [ht, List.map_append, List.mem_append, hp]
    by_cases hq : q = p
    · subst hq
      rw [Function.update_self]
      have hlast : (q, o') ∈ [(⟨q, o, A.decode (deserialize deserializer value) ⟨q, o, ts⟩⟩ : Taken Row)].map
          Taken.place ↔ o' = o := by
        simp [Taken.place]
      rw [hold, hlast]
      constructor
      · rintro (⟨hrec, hfrom, hlt⟩ | rfl)
        · exact ⟨hrec, hfrom, by omega⟩
        · refine ⟨?_, by omega, by omega⟩
          rw [hd.record]
          exact Option.some_ne_none value
      · rintro ⟨hrec, hfrom, hlt⟩
        by_cases hpos : o' < j.world.position q
        · exact Or.inl ⟨hrec, hfrom, hpos⟩
        · -- between the position and the record delivered there is none
          right
          by_contra hne
          exact hrec (hd.skipped o' (by omega) (not_lt.1 hpos))
    · rw [Function.update_of_ne hq]
      have hother : (q, o') ∉ [(⟨p, o, A.decode (deserialize deserializer value) ⟨p, o, ts⟩⟩ : Taken Row)].map
          Taken.place := by
        intro hmem
        exact hq (congrArg Prod.fst (List.mem_singleton.1 hmem))
      rw [hold]
      exact or_iff_left hother

/-- **A step keeps what is taken** in step with the position. -/
theorem logged_step (h : Logged A deserializer log c₀ j) (a : World.RunAct) :
    Logged A deserializer log c₀ (j.step A st log (deserializer, a)) := by
  have hreads : Journal.Reads A st log deserializer a j (j.step A st log (deserializer, a)) := Journal.reads_step ..
  generalize j.step A st log (deserializer, a) = j' at hreads ⊢
  have hquiet : j'.world.position = j.world.position → j'.taken = j.taken → Logged A deserializer log c₀ j' := by
    intro hp ht
    refine ⟨?_, ?_, ?_, ?_⟩
    · rw [hp]
      exact h.floor
    · rw [ht]
      exact h.outcome
    · rw [ht]
      exact h.nodup
    · rw [hp, ht]
      exact h.mem
  cases hreads with
  | nothing _ hp ht => exact hquiet hp ht
  | ended _ hp ht => exact hquiet hp ht
  | record _ _ hd hp ht => exact h.record hd hp ht

/-- The rows taken, by their records. -/
theorem map_place_decodedRows {taken : List (Taken Row)}
    (h : ∀ x ∈ taken, ∃ value ts, log x.partition x.offset = some value ∧
      x.outcome = A.decode (deserialize deserializer value) ⟨x.partition, x.offset, ts⟩) :
    (decodedRows taken).map placeOf =
      (taken.filter fun x => x.outcome.toOption.isSome).map Taken.place := by
  induction taken with
  | nil => rfl
  | cons x taken ih =>
    have hrest := ih fun y hy => h y (List.mem_cons_of_mem _ hy)
    obtain ⟨value, ts, -, hout⟩ := h x List.mem_cons_self
    unfold decodedRows at hrest ⊢
    cases hx : x.outcome with
    | error d =>
      rw [List.filterMap_cons_none (by rw [hx]; rfl), List.filter_cons_of_neg (by rw [hx]; exact Bool.false_ne_true),
        hrest]
    | ok row =>
      rw [hx] at hout
      have hplace : placeOf row = x.place := by
        unfold placeOf partitionOf offsetOf
        rw [A.place hout.symm]
        rfl
      rw [List.filterMap_cons_some (by rw [hx]; rfl), List.filter_cons_of_pos (by rw [hx]; rfl), List.map_cons,
        List.map_cons, hplace, hrest]

/-- **The rows taken** are those of the decodable records passed, each once. -/
theorem Logged.rows (h : Logged A deserializer log c₀ j) : ((decodedRows j.taken).map placeOf).Nodup ∧
    ∀ p o, (p, o) ∈ (decodedRows j.taken).map placeOf ↔
      HasRecord A deserializer log true p o ∧ c₀ p ≤ o ∧ o < j.world.position p := by
  rw [map_place_decodedRows h.outcome]
  refine ⟨h.nodup.sublist (List.filter_sublist.map _), fun p o => ?_⟩
  constructor
  · intro hmem
    obtain ⟨x, hx, hplace⟩ := List.mem_map.1 hmem
    obtain ⟨hx, hok⟩ := List.mem_filter.1 hx
    obtain ⟨rfl, rfl⟩ := Prod.mk.inj hplace
    obtain ⟨value, ts, hrec, hout⟩ := h.outcome x hx
    have hpassed := ((h.mem x.partition x.offset).1 (List.mem_map.2 ⟨x, hx, rfl⟩)).2
    refine ⟨⟨value, hrec, ?_⟩, hpassed⟩
    cases hx' : x.outcome with
    | error d =>
      rw [hx'] at hok
      cases hok
    | ok row =>
      rw [hx'] at hout
      exact A.accepts_of_ok hout.symm
  · rintro ⟨⟨value, hrec, hacc⟩, hfrom, hlt⟩
    have hne : log p o ≠ none := by
      rw [hrec]
      exact Option.some_ne_none value
    obtain ⟨x, hx, hplace⟩ := List.mem_map.1 ((h.mem p o).2 ⟨hne, hfrom, hlt⟩)
    obtain ⟨rfl, rfl⟩ := Prod.mk.inj hplace
    refine List.mem_map.2 ⟨x, List.mem_filter.2 ⟨hx, ?_⟩, rfl⟩
    obtain ⟨value', ts, hrec', hout⟩ := h.outcome x hx
    obtain rfl : value = value' := Option.some.inj (hrec.symm.trans hrec')
    cases hx' : x.outcome with
    | ok row => rfl
    | error d =>
      rw [hx'] at hout
      rw [A.accepts_of_error hout.symm] at hacc
      cases hacc

/-! ## One run -/

/-- A run of the archiver: its two clock readings before the loop, and what happens in it. -/
structure RunScript where
  now : ℤ
  now' : ℤ
  acts : List World.RunAct

namespace World

/-- The world after a run. -/
def runThrough (A : Archiver Row) (deserializer : Deserializer) (st : BronzeSettings) (log : KafkaLog) (w : World Row)
    (s : RunScript) : World Row :=
  Trace.run (runStep A deserializer st log) (w.start st s.now s.now') s.acts

/-- The run returns. -/
def Returns (A : Archiver Row) (deserializer : Deserializer) (st : BronzeSettings) (log : KafkaLog) (w : World Row)
    (s : RunScript) : Prop :=
  ∃ r, (w.runThrough A deserializer st log s).run = some r ∧ r.ctl = .done true

/-- From `w` to `w'` the table has gained a row for each decodable record between the committed
offsets. -/
structure Gained (A : Archiver Row) (deserializer : Deserializer) (log : KafkaLog) (w w' : World Row)
    (appended : List Row) : Prop where
  table : w'.table = w.table ++ appended
  nodup : (appended.map placeOf).Nodup
  mem : ∀ p o, (p, o) ∈ appended.map placeOf ↔
    HasRecord A deserializer log true p o ∧ w.committed p ≤ o ∧ o < w'.committed p
  floor : ∀ p, w.committed p ≤ w'.committed p

/-- The committed offsets are not past the consumer's positions. -/
theorem committed_le_move (hk : w.Placed A deserializer log c₀) (h : ∀ p, w.committed p ≤ w.position p) {a : RunAct}
    (hm : Move A deserializer log w a w') : ∀ p, w'.committed p ≤ w'.position p := by
  cases hm with
  | stay | quiet | append | send | report => exact h
  | reject _ _ hd | accept _ _ hd => exact fun q => (h q).trans (le_update hd.le q)
  | @commit _ _ r _ _ _ hr _ _ _ hw =>
    intro q
    rw [hw.position]
    by_contra hlt
    rcases hw.flushed (hk.run r hr) (not_le.1 hlt) with hc | hc
    · exact absurd (h q) (not_le.2 hc)
    · exact absurd hc (lt_irrefl _)
  | @commitPast _ _ r _ _ _ _ hr ht _ _ hw =>
    intro q
    rw [hw.position]
    by_contra hlt
    rcases hw.passed (hk.run r hr) (by rw [ht]; rfl) (not_le.1 hlt) with hc | ⟨-, hc⟩
    · exact absurd (h q) (not_le.2 hc)
    · exact absurd hc (lt_irrefl _)

/-- What a run keeps, beside its journal. -/
structure Passing (A : Archiver Row) (deserializer : Deserializer) (st : BronzeSettings) (log : KafkaLog)
    (T : List Row) (c₀ : ℤ → ℕ) (j : Journal Row) : Prop where
  books : j.Balanced A st T
  logged : Logged A deserializer log c₀ j
  placed : j.world.Placed A deserializer log c₀
  le : ∀ p, j.world.committed p ≤ j.world.position p
  sized : j.world.Sized st
  overlap : ∃ old cur, j.world.table = T ++ (old ++ cur) ∧ j.world.Overlap st old cur

theorem passing_start (hcap : 0 ≤ st.bronzeMaxRowsPerRun) (hN : 1 ≤ st.bronzeBatchMaxRows) (w : World Row)
    (now now' : ℤ) : Passing A deserializer st log w.table w.committed (.start st w now now') where
  books := Journal.balanced_start hcap w now now'
  logged := logged_start w now now'
  placed := placed_start (fun _ => le_rfl) now now'
  le := fun _ => le_rfl
  sized := sized_start hN w now now'
  overlap := ⟨[], [], by simp [Journal.start, start], overlap_start hN w now now'⟩

theorem passing_step (hN : 1 ≤ st.bronzeBatchMaxRows) {T : List Row} (h : Passing A deserializer st log T c₀ j)
    (a : RunAct) : Passing A deserializer st log T c₀ (j.step A st log (deserializer, a)) := by
  have hm := move_runStep A deserializer st log j.world a
  obtain ⟨old, cur, htable, hover⟩ := h.overlap
  exact {
    books := Journal.balanced_step h.books (deserializer, a)
    logged := logged_step h.logged a
    placed := placed_move h.placed hm
    le := committed_le_move h.placed h.le hm
    sized := sized_runStep hN h.sized a
    overlap := overlap_move hover h.sized htable hm }

/-- The journal of a run follows its world. -/
theorem world_journal (j : Journal Row) (as : List RunAct) :
    (Trace.run (Journal.step A st log) j (as.map fun a => (deserializer, a))).world =
      Trace.run (runStep A deserializer st log) j.world as := by
  induction as generalizing j with
  | nil => rfl
  | cons a as ih => exact ih _

theorem passing_run (hcap : 0 ≤ st.bronzeMaxRowsPerRun) (hN : 1 ≤ st.bronzeBatchMaxRows) (w : World Row)
    (s : RunScript) : ∃ j : Journal Row, j.world = w.runThrough A deserializer st log s ∧
      Passing A deserializer st log w.table w.committed j := by
  refine ⟨Trace.run (Journal.step A st log) (.start st w s.now s.now') (s.acts.map fun a => (deserializer, a)),
    world_journal _ _, ?_⟩
  have hstep : ∀ (j : Journal Row) (x : Deserializer × RunAct), x.1 = deserializer →
      Passing A deserializer st log w.table w.committed j →
        Passing A deserializer st log w.table w.committed (j.step A st log x) := by
    rintro j ⟨_, a⟩ rfl h
    exact passing_step hN h a
  have hok : Trace.Along (Journal.step A st log) (fun _ x => x.1 = deserializer) (.start st w s.now s.now')
      (s.acts.map fun a => (deserializer, a)) := by
    refine Trace.along_of_forall fun _ x hx => ?_
    obtain ⟨a, -, rfl⟩ := List.mem_map.1 hx
    rfl
  exact Trace.run_inv_along hstep (passing_start hcap hN w s.now s.now') hok

/-- A run that returns has appended the rows it took, and committed past them. -/
theorem Passing.appended {T : List Row} (h : Passing A deserializer st log T c₀ j) (hr : j.world.run = some r)
    (hdone : r.ctl = .done true) : j.world.table = T ++ decodedRows j.taken ∧
      r.archived = (decodedRows j.taken).length ∧ ∀ row ∈ decodedRows j.taken, j.world.Past row := by
  have hf : r.ctl.flushes = false := by rw [hdone]; rfl
  have hfailed : r.ctl.failed = false := by rw [hdone]; rfl
  obtain ⟨appended, htable, hbal⟩ := h.books r hr hfailed
  obtain ⟨old, cur, htable', hover⟩ := h.overlap
  obtain ⟨rfl, -⟩ := hover.behind hr hfailed hf
  have hold : appended = old := by
    have heq : T ++ appended = T ++ (old ++ []) := htable.symm.trans htable'
    rwa [List.append_cancel_left_eq, List.append_nil] at heq
  have hrows : appended = decodedRows j.taken := by
    rw [← hbal.rows_eq hf, hbal.drained (by rw [hdone]; rfl), List.append_nil]
  rw [← hrows]
  exact ⟨htable, hbal.count_eq hf, hold ▸ hover.past⟩

/-- **A run that returns has committed what it has passed**, of the decodable records. -/
theorem Passing.settled {T : List Row} (h : Passing A deserializer st log T c₀ j) (hr : j.world.run = some r)
    (hdone : r.ctl = .done true) (hrec : HasRecord A deserializer log true p o) (hfrom : c₀ p ≤ o) :
    o < j.world.position p ↔ o < j.world.committed p := by
  constructor
  · intro hlt
    obtain ⟨row, hrow, hplace⟩ := List.mem_map.1 ((h.logged.rows.2 p o).2 ⟨hrec, hfrom, hlt⟩)
    obtain ⟨rfl, rfl⟩ := Prod.mk.inj hplace
    exact (h.appended hr hdone).2.2 row hrow
  · exact fun hlt => hlt.trans_le (h.le p)

/-- **A run that returns archives each record once**: its rows are those of the decodable records
between the committed offsets it found and those it leaves. -/
theorem Passing.gained (h : Passing A deserializer st log w.table w.committed j) (hr : j.world.run = some r)
    (hdone : r.ctl = .done true) : Gained A deserializer log w j.world (decodedRows j.taken) where
  table := (h.appended hr hdone).1
  nodup := h.logged.rows.1
  mem := by
    intro p o
    rw [h.logged.rows.2]
    constructor
    · rintro ⟨hrec, hfrom, hlt⟩
      exact ⟨hrec, hfrom, (h.settled hr hdone hrec hfrom).1 hlt⟩
    · rintro ⟨hrec, hfrom, hlt⟩
      exact ⟨hrec, hfrom, (h.settled hr hdone hrec hfrom).2 hlt⟩
  floor := h.placed.floor

theorem gained_run (hcap : 0 ≤ st.bronzeMaxRowsPerRun) (hN : 1 ≤ st.bronzeBatchMaxRows) {s : RunScript}
    (h : w.Returns A deserializer st log s) :
    ∃ appended, Gained A deserializer log w (w.runThrough A deserializer st log s) appended := by
  obtain ⟨r, hr, hdone⟩ := h
  obtain ⟨j, hj, hpassing⟩ : ∃ j : Journal Row, j.world = w.runThrough A deserializer st log s ∧
      Passing A deserializer st log w.table w.committed j := passing_run hcap hN w s
  rw [← hj] at hr ⊢
  exact ⟨_, hpassing.gained hr hdone⟩

/-! ## Many runs -/

theorem Gained.refl (w : World Row) : Gained A deserializer log w w [] where
  table := (List.append_nil _).symm
  nodup := List.nodup_nil
  mem := by
    intro p o
    have hnone : ¬ (w.committed p ≤ o ∧ o < w.committed p) := by omega
    constructor
    · rintro ⟨⟩
    · exact fun h => absurd h.2 hnone
  floor := fun _ => le_rfl

theorem Gained.trans {rows rows' : List Row} (h : Gained A deserializer log w w' rows)
    (h' : Gained A deserializer log w' w'' rows') : Gained A deserializer log w w'' (rows ++ rows') where
  table := by rw [h'.table, h.table, List.append_assoc]
  nodup := by
    rw [List.map_append]
    refine h.nodup.append h'.nodup ?_
    rintro ⟨p, o⟩ hmem hmem'
    have hlt := ((h.mem p o).1 hmem).2.2
    have hle := ((h'.mem p o).1 hmem').2.1
    omega
  mem := by
    intro p o
    have hle := h.floor p
    have hle' := h'.floor p
    rw [List.map_append, List.mem_append, h.mem, h'.mem]
    constructor
    · rintro (⟨hrec, hfrom, hlt⟩ | ⟨hrec, hfrom, hlt⟩)
      · exact ⟨hrec, hfrom, by omega⟩
      · exact ⟨hrec, by omega, hlt⟩
    · rintro ⟨hrec, hfrom, hlt⟩
      by_cases ho : o < w'.committed p
      · exact Or.inl ⟨hrec, hfrom, ho⟩
      · exact Or.inr ⟨hrec, not_lt.1 ho, hlt⟩
  floor := fun p => (h.floor p).trans (h'.floor p)

end World

/-! ## Catching up -/

/-- The run has left its loop by itself. -/
def Ctl.leaving : Ctl → Bool
  | .append .closing | .commit .closing | .closing true | .done true => true
  | _ => false

theorem Ctl.not_leaving {c : Ctl} (h : c.failed = true) : c.leaving = false := by
  cases c with
  | closing returned | done returned => cases returned <;> first | rfl | cases h
  | _ => cases h

namespace Run

/-- The run has reached its row cap. -/
def Spent (st : BronzeSettings) (r : Run Row) : Prop := st.bronzeMaxRowsPerRun ≤ r.archived + r.batch.rows.length

variable {P : Prop}

theorem leaving_poll (r : Run Row) (msg : Option Msg) (now ts now' : ℤ) :
    (r.poll A deserializer msg now ts now').ctl.leaving = false := by
  have hpolled := polled_poll A deserializer r msg now ts now'
  generalize r.poll A deserializer msg now ts now' = r' at hpolled ⊢
  generalize taken A deserializer ts msg = ys at hpolled
  cases hpolled with
  | quiet _ _ hc => rcases hc with hc | hc | hc | hc <;> rw [hc] <;> rfl
  | reject _ _ hc => rw [hc]; rfl
  | accept _ _ hc => rcases hc with hc | ⟨hc, -⟩ <;> rw [hc] <;> rfl

/-- **A run leaves its loop** at its cap, or where its stop check lets it. -/
theorem leaving_go (h : r.ctl.leaving = true → r.Spent st ∨ P) {now : ℤ} {assignment : List ℤ}
    (hstop : r.ctl = .idle → r.batch.isEmpty = true →
      r.drained assignment = true ∨ idleStopSeconds < now - r.lastActivity → P)
    (hl : (r.go A st now assignment).1.ctl.leaving = true) : (r.go A st now assignment).1.Spent st ∨ P := by
  have hnext : ∀ next : Next, next.ctl.leaving = true → next = .closing := by
    intro next hn
    cases next with
    | closing => rfl
    | _ => cases hn
  unfold Run.go at hl ⊢
  cases ht : r.ctl with
  | top =>
    simp only [ht] at hl ⊢
    split at hl
    · rw [ht] at hl
      cases hl
    · rename_i hgo
      rw [if_neg hgo]
      unfold goesOn at hgo
      rw [decide_eq_true_eq] at hgo
      exact Or.inl (not_lt.1 hgo)
  | append next =>
    simp only [ht] at hl ⊢
    have hn : next = .closing := by
      cases next with
      | closing => rfl
      | _ => cases hl
    subst hn
    exact h (by rw [ht]; rfl)
  | commit next =>
    simp only [ht] at hl ⊢
    obtain rfl := hnext next hl
    rcases h (by rw [ht]; rfl) with hspent | hP
    · left
      unfold Spent at hspent ⊢
      rw [Batch.clear_rows, List.length_nil]
      push_cast at hspent ⊢
      omega
    · exact Or.inr hP
  | idle =>
    simp only [ht] at hl ⊢
    split at hl
    · rename_i hidle
      rw [Bool.and_eq_true, Bool.or_eq_true, decide_eq_true_eq] at hidle
      exact Or.inr (hstop ht hidle.1 hidle.2)
    · cases hl
  | send | commitPast =>
    simp only [ht] at hl
    cases hl
  | closing returned =>
    simp only [ht] at hl ⊢
    cases returned with
    | false => cases hl
    | true => exact h (by rw [ht]; rfl)
  | done returned =>
    simp only [ht] at hl ⊢
    exact h (by rw [ht]; exact hl)

end Run

namespace World

/-- A partition reports its end where the consumer has reached it; where a stop check finds the batch empty, a
drained consumer is assigned every partition that has a record, and the idle ceiling is past only for a drained
one: it stops no other run. -/
def Patient (log : KafkaLog) (w : World Row) : RunAct → Prop
  | .poll (some ⟨some .partitionEof, some p, _, _⟩) _ _ _ => ∀ o, w.position p ≤ o → log p o = none
  | .go now assignment => ∀ r, w.run = some r → r.ctl = .idle → r.batch.isEmpty = true →
      (r.drained assignment = true → ∀ p o, log p o ≠ none → p ∈ assignment) ∧
        (idleStopSeconds < now - r.lastActivity → r.drained assignment = true)
  | _ => True

/-- The run has passed every record. -/
def AllRead (log : KafkaLog) (w : World Row) : Prop := ∀ p o, log p o ≠ none → o < w.position p

/-- What a patient run keeps: a partition in `eof_partitions` is read to its end, and where the loop
is left, the cap is reached or everything is read. -/
structure Leaves (st : BronzeSettings) (log : KafkaLog) (w : World Row) : Prop where
  eof : ∀ r, w.run = some r → ∀ p ∈ r.eofPartitions, ∀ o, w.position p ≤ o → log p o = none
  left : ∀ r, w.run = some r → r.ctl.leaving = true → r.Spent st ∨ w.AllRead log

theorem leaves_start (w : World Row) (now now' : ℤ) : (w.start st now now').Leaves st log where
  eof := by
    rintro r ⟨⟩ p hp
    cases hp
  left := by
    rintro r ⟨⟩ hl
    cases hl

/-- A drained run has read everything. -/
theorem Leaves.allRead (h : w.Leaves st log) (hr : w.run = some r) {assignment : List ℤ}
    (hdrained : r.drained assignment = true) (hall : ∀ p o, log p o ≠ none → p ∈ assignment) : w.AllRead log := by
  intro p o hrec
  by_contra hle
  unfold Run.drained at hdrained
  rw [Bool.and_eq_true, List.all_eq_true] at hdrained
  have hmem : p ∈ r.eofPartitions := of_decide_eq_true (hdrained.2 p (hall p o hrec))
  exact hrec (h.eof r hr p hmem o (not_lt.1 hle))

/-- The ends reported stay reached. -/
theorem eof_step (h : w.Leaves st log) {a : RunAct} (hok : w.Patient log a) :
    ∀ r', (w.runStep A deserializer st log a).run = some r' → ∀ p ∈ r'.eofPartitions,
      ∀ o, (w.runStep A deserializer st log a).position p ≤ o → log p o = none := by
  have hreads : Journal.Reads A st log deserializer a ⟨w, [], []⟩
    (Journal.step A st log ⟨w, [], []⟩ (deserializer, a)) := Journal.reads_step ..
  intro r' hr' p hp o hle
  cases hreads with
  | nothing _ hpos _ hrun =>
    obtain ⟨r, hr, heof⟩ := hrun r' hr'
    have hpos' : (w.runStep A deserializer st log a).position = w.position := hpos
    rw [hpos'] at hle
    rw [heof] at hp
    exact h.eof r hr p hp o hle
  | @ended q hend hpos _ hrun =>
    obtain ⟨r, hr, heof⟩ := hrun r' hr'
    have hpos' : (w.runStep A deserializer st log a).position = w.position := hpos
    rw [hpos'] at hle
    rw [heof] at hp
    rcases List.mem_cons.1 hp with rfl | hp
    · -- the end just reported
      have hend' : w.eofOf st a = some p := hend
      unfold eofOf at hend'
      split at hend'
      · split at hend'
        · split at hend'
          · obtain rfl := Option.some.inj hend'
            exact hok o hle
          · cases hend'
        · cases hend'
      · cases hend'
    · exact h.eof r hr p hp o hle
  | @record q o' value ts _ _ hd hpos _ hrun =>
    obtain ⟨r, hr, heof⟩ := hrun r' hr'
    have hpos' : (w.runStep A deserializer st log a).position = Function.update w.position q (o' + 1) := hpos
    rw [hpos'] at hle
    rw [heof] at hp
    obtain ⟨hp, hne⟩ := List.mem_filter.1 hp
    rw [Function.update_of_ne (of_decide_eq_true hne)] at hle
    exact h.eof r hr p hp o hle

/-- **What a run that leaves its loop has done**: a step of a patient run leaves it at the cap or
with everything read. -/
theorem leaves_step {a : RunAct} (hok : w.Patient log a) (h : w.Leaves st log) :
    (w.runStep A deserializer st log a).Leaves st log where
  eof := eof_step h hok
  left := by
    intro r' hr' hl
    cases hr : w.run with
    | none =>
      have hnone : (w.runStep A deserializer st log a).run = none := by
        cases a with
        | report i success => exact (report_frame w i success).1.trans hr
        | _ => simp only [runStep, hr]
      rw [hnone] at hr'
      cases hr'
    | some r =>
      cases a with
      | poll msg now ts now' =>
        simp only [runStep, hr] at hr' ⊢
        split at hr'
        · obtain rfl := Option.some.inj hr'
          rw [Run.leaving_poll] at hl
          cases hl
        · rename_i hno
          rw [if_neg hno]
          exact h.left r' hr' hl
      | go now assignment =>
        simp only [runStep, hr, Option.some.injEq] at hr' ⊢
        subst hr'
        have hpos : ∀ e : Option (Effect Row), (w.apply e).AllRead log ↔ w.AllRead log := by
          intro e
          unfold AllRead
          rw [apply_position]
        have hstop : r.ctl = .idle → r.batch.isEmpty = true →
            r.drained assignment = true ∨ idleStopSeconds < now - r.lastActivity → w.AllRead log := by
          intro hidle hempty hcause
          obtain ⟨hall, hceiling⟩ := hok r hr hidle hempty
          have hdrained : r.drained assignment = true := hcause.elim id hceiling
          exact h.allRead hr hdrained (hall hdrained)
        exact (Run.leaving_go (h.left r hr) hstop hl).imp id (hpos _).2
      | raise =>
        simp only [runStep, hr, Option.some.injEq] at hr'
        rw [← hr', Ctl.not_leaving (raise_ctl r).2.2] at hl
        cases hl
      | report i success =>
        have hrun := (report_frame w i success).1
        have hpos : (w.report i success).position = w.position := report_position w i success
        rw [runStep] at hr' ⊢
        rw [hrun] at hr'
        unfold AllRead
        rw [hpos]
        exact h.left r' hr' hl

/-- The run meets only ends that are reached, and returns at its cap or drained. -/
def Ends (A : Archiver Row) (deserializer : Deserializer) (st : BronzeSettings) (log : KafkaLog) (w : World Row)
    (s : RunScript) : Prop :=
  w.Returns A deserializer st log s ∧
    Trace.Along (runStep A deserializer st log) (Patient log) (w.start st s.now s.now') s.acts

/-- The run has archived exactly its cap of rows, or has passed every record and committed past the decodable
ones. -/
def Progresses (A : Archiver Row) (deserializer : Deserializer) (st : BronzeSettings) (log : KafkaLog) (w : World Row)
    (s : RunScript) : Prop :=
  ∃ appended, Gained A deserializer log w (w.runThrough A deserializer st log s) appended ∧
    ((appended.length : ℤ) = st.bronzeMaxRowsPerRun ∨
      (w.runThrough A deserializer st log s).AllRead log ∧
        ∀ p o, HasRecord A deserializer log true p o → o < (w.runThrough A deserializer st log s).committed p)

/-- **A run makes its progress**: it archives its cap of records, or all there are. -/
theorem ends_progress (hcap : 0 ≤ st.bronzeMaxRowsPerRun) (hN : 1 ≤ st.bronzeBatchMaxRows) {s : RunScript}
    (h : w.Ends A deserializer st log s) : w.Progresses A deserializer st log s := by
  obtain ⟨⟨r, hr, hdone⟩, hpatient⟩ := h
  have hleaves : (w.runThrough A deserializer st log s).Leaves st log :=
    Trace.run_inv_along (fun _ _ hok h => leaves_step hok h) (leaves_start w s.now s.now') hpatient
  obtain ⟨j, hj, hpassing⟩ : ∃ j : Journal Row, j.world = w.runThrough A deserializer st log s ∧
      Passing A deserializer st log w.table w.committed j := passing_run hcap hN w s
  rw [← hj] at hr hleaves
  have hgained := hpassing.gained hr hdone
  unfold Progresses
  rw [← hj]
  refine ⟨_, hgained, ?_⟩
  rcases hleaves.left r hr (by rw [hdone]; rfl) with hspent | hall
  · left
    have hcount := (hpassing.appended hr hdone).2.1
    obtain ⟨_, -, hbal⟩ := hpassing.books r hr (by rw [hdone]; rfl)
    have hempty := hbal.drained (by rw [hdone]; rfl)
    have hle := hbal.cap
    unfold Run.Spent at hspent
    rw [hempty, hcount, List.length_nil] at hspent hle
    push_cast at hspent hle
    omega
  · refine Or.inr ⟨hall, fun p o hrec => ?_⟩
    by_cases hfrom : w.committed p ≤ o
    · obtain ⟨value, hlog, -⟩ := id hrec
      have hlt : o < j.world.position p := hall p o (by rw [hlog]; exact Option.some_ne_none value)
      exact (hpassing.settled hr hdone hrec hfrom).1 hlt
    · exact (not_le.1 hfrom).trans_le (hgained.floor p)

end World

/-- The decodable records at or above the offsets `c₀`. -/
def backlog (A : Archiver Row) (deserializer : Deserializer) (log : KafkaLog) (c₀ : ℤ → ℕ) : Set (ℤ × ℕ) :=
  {x | HasRecord A deserializer log true x.1 x.2 ∧ c₀ x.1 ≤ x.2}

/-- What is gained is part of the backlog. -/
theorem World.Gained.length_le {rows : List Row} (h : World.Gained A deserializer log w w' rows)
    (hfin : (backlog A deserializer log w.committed).Finite) :
    rows.length ≤ (backlog A deserializer log w.committed).ncard ∧
      (rows.length = (backlog A deserializer log w.committed).ncard →
        ∀ p o, HasRecord A deserializer log true p o → o < w'.committed p) := by
  classical
  have hsub : (↑(rows.map placeOf).toFinset : Set (ℤ × ℕ)) ⊆ backlog A deserializer log w.committed := by
    rintro ⟨p, o⟩ hmem
    obtain ⟨hrec, hfrom, -⟩ := (h.mem p o).1 (List.mem_toFinset.1 hmem)
    exact ⟨hrec, hfrom⟩
  have hcard : (↑(rows.map placeOf).toFinset : Set (ℤ × ℕ)).ncard = rows.length := by
    rw [Set.ncard_coe_finset, List.toFinset_card_of_nodup h.nodup, List.length_map]
  refine ⟨?_, fun heq p o hrec => ?_⟩
  · rw [← hcard]
    exact Set.ncard_le_ncard hsub hfin
  · have hall : (↑(rows.map placeOf).toFinset : Set (ℤ × ℕ)) = backlog A deserializer log w.committed :=
      Set.eq_of_subset_of_ncard_le hsub (by rw [hcard, heq]) hfin
    by_cases hfrom : w.committed p ≤ o
    · have hmem : (p, o) ∈ (↑(rows.map placeOf).toFinset : Set (ℤ × ℕ)) := by
        rw [hall]
        exact ⟨hrec, hfrom⟩
      exact ((h.mem p o).1 (List.mem_toFinset.1 hmem)).2.2
    · exact (not_le.1 hfrom).trans_le (h.floor p)

/-- **Successive runs archive each record once.** However many runs follow each other, each from
where the one before has committed, and whatever is polled in them: where they return, the table has
gained exactly one row for each decodable record between the first committed offsets and the last.
-/
theorem runs_archive_once (A : Archiver Row) (deserializer : Deserializer) (st : BronzeSettings) (log : KafkaLog)
    (hcap : 0 ≤ st.bronzeMaxRowsPerRun) (hN : 1 ≤ st.bronzeBatchMaxRows) (w : World Row) (ss : List RunScript)
    (h : Trace.Along (World.runThrough A deserializer st log) (World.Returns A deserializer st log) w ss) :
    ∃ appended, World.Gained A deserializer log w (Trace.run (World.runThrough A deserializer st log) w ss)
      appended := by
  induction ss generalizing w with
  | nil => exact ⟨[], World.Gained.refl w⟩
  | cons s ss ih =>
    obtain ⟨hs, hss⟩ := h
    obtain ⟨rows, hrows⟩ := World.gained_run hcap hN hs
    obtain ⟨rows', hrows'⟩ := ih _ hss
    exact ⟨rows ++ rows', hrows.trans hrows'⟩

/-- What runs that make their progress archive together: their caps, or all there is. -/
theorem World.progress_run (ss : List RunScript) (w : World Row)
    (h : Trace.Along (World.runThrough A deserializer st log) (World.Progresses A deserializer st log) w ss) :
    ∃ appended, World.Gained A deserializer log w (Trace.run (World.runThrough A deserializer st log) w ss) appended ∧
      ((ss.length * st.bronzeMaxRowsPerRun : ℤ) ≤ appended.length ∨ ∀ p o, HasRecord A deserializer log true p o →
        o < (Trace.run (World.runThrough A deserializer st log) w ss).committed p) := by
  induction ss generalizing w with
  | nil => exact ⟨[], World.Gained.refl w, Or.inl (by simp)⟩
  | cons s ss ih =>
    obtain ⟨⟨rows, hrows, hrun⟩, hss⟩ := h
    obtain ⟨rows', hrows', hruns⟩ := ih _ hss
    refine ⟨rows ++ rows', hrows.trans hrows', ?_⟩
    rcases hruns with hcaps | hall
    · rcases hrun with hspent | ⟨-, hall⟩
      · left
        rw [List.length_append, List.length_cons]
        push_cast
        linarith
      · -- what a run has read to the end stays so
        exact Or.inr fun p o hrec => (hall p o hrec).trans_le (hrows'.floor p)
    · exact Or.inr hall

/-- **The archiver catches up.** On a topic that does not grow, where the runs return and none is stopped by the
idle ceiling: each has archived exactly its row cap or read everything; and as soon as their caps add up to the
decodable records from the committed offsets on, the table has gained exactly one row for each of them. -/
theorem runs_catch_up (A : Archiver Row) (deserializer : Deserializer) (st : BronzeSettings) (log : KafkaLog)
    (hcap : 0 ≤ st.bronzeMaxRowsPerRun) (hN : 1 ≤ st.bronzeBatchMaxRows) (w : World Row) (ss : List RunScript)
    (h : Trace.Along (World.runThrough A deserializer st log) (World.Ends A deserializer st log) w ss) :
    Trace.Along (World.runThrough A deserializer st log) (World.Progresses A deserializer st log) w ss ∧
      ((backlog A deserializer log w.committed).Finite →
        ((backlog A deserializer log w.committed).ncard : ℤ) ≤ ss.length * st.bronzeMaxRowsPerRun →
        ∃ appended, (Trace.run (World.runThrough A deserializer st log) w ss).table = w.table ++ appended ∧
          (appended.map placeOf).Nodup ∧
          ∀ p o, (p, o) ∈ appended.map placeOf ↔ HasRecord A deserializer log true p o ∧ w.committed p ≤ o) := by
  have hprogress : Trace.Along (World.runThrough A deserializer st log) (World.Progresses A deserializer st log) w ss :=
    Trace.along_mono (fun _ _ hends => World.ends_progress hcap hN hends) h
  refine ⟨hprogress, fun hfin henough => ?_⟩
  obtain ⟨appended, hgained, hdone⟩ := World.progress_run ss w hprogress
  obtain ⟨hle, hfull⟩ := hgained.length_le hfin
  have hall : ∀ p o, HasRecord A deserializer log true p o →
      o < (Trace.run (World.runThrough A deserializer st log) w ss).committed p := by
    rcases hdone with hcaps | hall
    · exact hfull (by omega)
    · exact hall
  refine ⟨appended, hgained.table, hgained.nodup, fun p o => ?_⟩
  rw [hgained.mem]
  exact ⟨fun h => ⟨h.1, h.2.1⟩, fun h => ⟨h.1, h.2, hall p o h.1⟩⟩

/-! ## Two runs -/

/-- A cap of one row. -/
def oneRowPerRun : BronzeSettings := { defaultSettings with bronzeMaxRowsPerRun := 1 }

/-- Two posts, and a value without a schema id between them. -/
def twoPostsLog : KafkaLog := topicOf [postBytes, [], postBytes]

/-- The first post is read, and the cap is reached. -/
def firstRun : RunScript :=
  ⟨0, 0, [.poll (messageAt 0 postBytes) 0 1 0, .go 0 [0], .go 0 [0], .go 0 [0], .go 0 [0]]⟩

/-- The value is quarantined, the second post read, and the cap is reached. -/
def secondRun : RunScript :=
  ⟨0, 0, [.poll (messageAt 1 []) 0 1 0, .go 0 [0], .go 0 [0], .poll (messageAt 2 postBytes) 0 1 0, .go 0 [0],
    .go 0 [0], .go 0 [0], .go 0 [0]]⟩

/-- The world before them. -/
def beforeRuns : World BronzeRow := .init [] fun _ => 0

/-- The world after the first. -/
def afterFirst : World BronzeRow :=
  beforeRuns.runThrough (postsBronze asciiHost oneRowPerRun) postDeserializer oneRowPerRun twoPostsLog
    firstRun

theorem World.patient_go (h : w.run.map Run.ctl ≠ some .idle) (now : ℤ) (assignment : List ℤ) :
    w.Patient log (.go now assignment) := by
  intro r hr hidle
  rw [hr] at h
  exact absurd (congrArg some hidle) h

theorem ends_bothRuns : Trace.Along
    (World.runThrough (postsBronze asciiHost oneRowPerRun) postDeserializer oneRowPerRun twoPostsLog)
    (World.Ends (postsBronze asciiHost oneRowPerRun) postDeserializer oneRowPerRun twoPostsLog) beforeRuns [firstRun, secondRun] := by
  have hfirst : afterFirst.run.map Run.ctl = some (.done true) := by decide
  have hsecond : (afterFirst.runThrough (postsBronze asciiHost oneRowPerRun) postDeserializer oneRowPerRun
      twoPostsLog secondRun).run.map Run.ctl = some (.done true) := by decide
  obtain ⟨r, hr, hdone⟩ := Option.map_eq_some_iff.1 hfirst
  obtain ⟨r', hr', hdone'⟩ := Option.map_eq_some_iff.1 hsecond
  refine ⟨⟨⟨r, hr, hdone⟩, ?_⟩, ⟨⟨r', hr', hdone'⟩, ?_⟩, trivial⟩
  · exact ⟨trivial, World.patient_go (by decide) _ _, World.patient_go (by decide) _ _,
      World.patient_go (by decide) _ _, World.patient_go (by decide) _ _, trivial⟩
  · exact ⟨trivial, World.patient_go (by decide) _ _, World.patient_go (by decide) _ _, trivial,
      World.patient_go (by decide) _ _, World.patient_go (by decide) _ _, World.patient_go (by decide) _ _,
      World.patient_go (by decide) _ _, trivial⟩

/-- The two posts are the backlog. -/
theorem backlog_twoPostsLog : backlog (postsBronze asciiHost oneRowPerRun) postDeserializer twoPostsLog
    beforeRuns.committed ⊆ (↑({(0, 0), (0, 2)} : Finset (ℤ × ℕ)) : Set (ℤ × ℕ)) := by
  rintro ⟨p, o⟩ ⟨⟨value, hlog, hacc⟩, -⟩
  change (if p = 0 then ([postBytes, [], postBytes][o]?).map some else none) = some value at hlog
  split at hlog
  · rename_i hp
    have ho : o < 3 := by
      by_contra hge
      rw [List.getElem?_eq_none (not_lt.1 hge)] at hlog
      cases hlog
    subst hp
    interval_cases o
    · simp
    · -- the value without a schema id
      cases hlog
      exact absurd hacc (by decide)
    · simp
  · cases hlog

theorem runs_archive_once_two :
    ∃ appended, World.Gained (postsBronze asciiHost oneRowPerRun) postDeserializer twoPostsLog beforeRuns
      (Trace.run (World.runThrough (postsBronze asciiHost oneRowPerRun) postDeserializer oneRowPerRun twoPostsLog)
        beforeRuns [firstRun, secondRun]) appended :=
  runs_archive_once (postsBronze asciiHost oneRowPerRun) postDeserializer oneRowPerRun twoPostsLog (by decide)
    (by decide) beforeRuns [firstRun, secondRun] (Trace.along_mono (fun _ _ h => h.1) ends_bothRuns)

/-- Each post is archived once, by runs of one row each. -/
theorem runs_catch_up_two :
    Trace.Along (World.runThrough (postsBronze asciiHost oneRowPerRun) postDeserializer oneRowPerRun twoPostsLog)
        (World.Progresses (postsBronze asciiHost oneRowPerRun) postDeserializer oneRowPerRun twoPostsLog) beforeRuns
        [firstRun, secondRun] ∧
      ∃ appended, (Trace.run (World.runThrough (postsBronze asciiHost oneRowPerRun) postDeserializer oneRowPerRun
          twoPostsLog) beforeRuns [firstRun, secondRun]).table = beforeRuns.table ++ appended ∧
        (appended.map placeOf).Nodup ∧
        ∀ p o, (p, o) ∈ appended.map placeOf ↔
          HasRecord (postsBronze asciiHost oneRowPerRun) postDeserializer twoPostsLog true p o ∧
            beforeRuns.committed p ≤ o := by
  have hfin : (backlog (postsBronze asciiHost oneRowPerRun) postDeserializer twoPostsLog beforeRuns.committed).Finite :=
    (Finset.finite_toSet _).subset backlog_twoPostsLog
  have hcard := Set.ncard_le_ncard backlog_twoPostsLog (Finset.finite_toSet _)
  rw [Set.ncard_coe_finset] at hcard
  have htwo : (backlog (postsBronze asciiHost oneRowPerRun) postDeserializer twoPostsLog beforeRuns.committed).ncard ≤ 2 :=
    hcard.trans (by decide)
  have hcaps : (([firstRun, secondRun] : List RunScript).length * oneRowPerRun.bronzeMaxRowsPerRun : ℤ) = 2 := by decide
  obtain ⟨hprogress, hcatch⟩ := runs_catch_up (postsBronze asciiHost oneRowPerRun) postDeserializer oneRowPerRun
    twoPostsLog (by decide) (by decide) beforeRuns [firstRun, secondRun] ends_bothRuns
  exact ⟨hprogress, hcatch hfin (by omega)⟩

end BlueskyTrends
