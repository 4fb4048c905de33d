import BlueskyTrends.Proof.Consumed

/-!
# What a drained run has read

A run stops when every assigned partition has reported its end. `Topic` is a topic that grows while the run
reads it, `Feed` a run on it with the log ends that its partitions have reported.

* `read_step`: what a step keeps: the records passed are those taken, and a partition in `eof_partitions` has
  had nothing delivered since it last reported its end.
* `drained_complete`: **a run that stops as drained has read everything.**
-/

namespace BlueskyTrends

variable {Row : Type} [KafkaRow Row] {A : Archiver Row} {st : BronzeSettings}

/-! ## A topic that grows -/

/-- The records of a topic, and the log end of each partition. -/
structure Topic where
  log : KafkaLog
  logEnd : ℤ → ℕ
  below : ∀ p o value, log p o = some value → o < logEnd p

/-- A record is appended to a partition, after `skip` offsets without one. -/
def Topic.produce (topic : Topic) (p : ℤ) (skip : ℕ) (value : Option Bytes) : Topic where
  log := fun q o => if q = p ∧ o = topic.logEnd p + skip then some value else topic.log q o
  logEnd := fun q => if q = p then topic.logEnd p + skip + 1 else topic.logEnd q
  below := fun q o v h => by
    split at h
    · rename_i hnew
      rw [if_pos hnew.1]
      omega
    · have hlt := topic.below q o v h
      split
      · subst q
        omega
      · exact hlt

/-- The log ends move up. -/
theorem Topic.logEnd_le (topic : Topic) (p : ℤ) (skip : ℕ) (value : Option Bytes) (q : ℤ) :
    topic.logEnd q ≤ (topic.produce p skip value).logEnd q := by
  simp only [produce]
  split
  · subst q
    omega
  · exact le_rfl

/-- Below the old log ends nothing changes. -/
theorem Topic.log_produce (topic : Topic) (p : ℤ) (skip : ℕ) (value : Option Bytes) {q : ℤ} {o : ℕ}
    (h : o < topic.logEnd q) : (topic.produce p skip value).log q o = topic.log q o := by
  refine if_neg ?_
  rintro ⟨rfl, rfl⟩
  omega

/-- A run on a topic that grows. `eofEnd` records the log end of each partition at the last end it has
reported in the run. -/
structure Feed (Row : Type) [KafkaRow Row] where
  journal : Journal Row
  topic : Topic
  eofEnd : ℤ → Option ℕ

/-- A record is produced, or the run takes a step. -/
inductive FeedAct where
  | produce (partition : ℤ) (skip : ℕ) (value : Option Bytes)
  | run (deserializer : Deserializer) (a : World.RunAct)

/-- The partition whose end the run is told of. -/
def World.eofOf (st : BronzeSettings) (w : World Row) : World.RunAct → Option ℤ
  | .poll (some ⟨some .partitionEof, some p, _, _⟩) _ _ _ => match w.run with
    | some r => if r.ctl = .top ∧ r.goesOn st then some p else none
    | none => none
  | _ => none

/-! ## What a step reads -/

/-- What a step of a run reads, as to its position, the records taken and `eof_partitions`. -/
inductive Journal.Reads (A : Archiver Row) (st : BronzeSettings) (log : KafkaLog) (deserializer : Deserializer)
    (a : World.RunAct) (j j' : Journal Row) : Prop
  | nothing (he : j.world.eofOf st a = none) (hp : j'.world.position = j.world.position)
      (ht : j'.taken = j.taken)
      (hr : ∀ r', j'.world.run = some r' → ∃ r, j.world.run = some r ∧ r'.eofPartitions = r.eofPartitions)
  | ended {p : ℤ} (he : j.world.eofOf st a = some p) (hp : j'.world.position = j.world.position)
      (ht : j'.taken = j.taken)
      (hr : ∀ r', j'.world.run = some r' →
        ∃ r, j.world.run = some r ∧ r'.eofPartitions = p :: r.eofPartitions)
  | record {p : ℤ} {o : ℕ} {value : Option Bytes} {ts : ℤ} (he : j.world.eofOf st a = none)
      (ha : ∃ now now', a = .poll (some ⟨none, some p, some o, value⟩) now ts now')
      (hd : World.Delivers log j.world p o value)
      (hp : j'.world.position = Function.update j.world.position p (o + 1))
      (ht : j'.taken = j.taken ++ [⟨p, o, A.decode (deserialize deserializer value) ⟨p, o, ts⟩⟩])
      (hr : ∀ r', j'.world.run = some r' →
        ∃ r, j.world.run = some r ∧ r'.eofPartitions = r.eofPartitions.filter (· ≠ p))

namespace Run

variable {r : Run Row}

theorem eofPartitions_go (r : Run Row) (now : ℤ) (assignment : List ℤ) :
    (r.go A st now assignment).1.eofPartitions = r.eofPartitions := by
  unfold go
  cases r.ctl with
  | top | idle =>
    simp only
    split
    · rfl
    · rfl
  | append | commit | send | commitPast | closing | done => rfl

theorem eofPartitions_raise (r : Run Row) : r.raise.eofPartitions = r.eofPartitions := by
  unfold raise
  split <;> rfl

theorem eofPartitions_data (r : Run Row) (deserializer : Deserializer) (p : ℤ) (o : ℕ)
    (value : Option Bytes) (now ts : ℤ) :
    (r.data A deserializer p o value now ts).eofPartitions = r.eofPartitions.filter (· ≠ p) := by
  unfold data
  split
  · rfl
  · simp only
    split <;> rfl

end Run

namespace World

variable {w : World Row} {log : KafkaLog}

variable (st) in
theorem eofOf_none (hr : w.run = none) (a : RunAct) : w.eofOf st a = none := by
  unfold eofOf
  split
  · rw [hr]
  · rfl

/-- The run is told of an end only where it polls. -/
theorem eofOf_stay {r : Run Row} {msg : Option Msg} (hr : w.run = some r)
    (h : ¬ (r.ctl = .top ∧ r.goesOn st ∧ ∀ m ∈ msg, deliverable log w.position m)) (now ts now' : ℤ) :
    w.eofOf st (.poll msg now ts now') = none := by
  match msg with
  | some ⟨some .partitionEof, some p, o, v⟩ =>
    simp only [eofOf, hr]
    refine if_neg fun hgo => h ⟨hgo.1, hgo.2, ?_⟩
    rintro m ⟨⟩
    trivial
  | none => rfl
  | some ⟨some .partitionEof, none, o, v⟩ => rfl
  | some ⟨some .other, p, o, v⟩ => rfl
  | some ⟨none, p, o, v⟩ => rfl

theorem apply_position (w : World Row) (e : Option (Effect Row)) : (w.apply e).position = w.position := by
  cases e with
  | none => rfl
  | some e => cases e <;> rfl

theorem report_position (w : World Row) (i : ℕ) (success : Bool) :
    (w.report i success).position = w.position := by
  unfold report
  split <;> rfl

end World

namespace Journal

variable {j : Journal Row} {log : KafkaLog} {r : Run Row}

/-- What a poll reads. -/
theorem reads_poll (hr : j.world.run = some r) {msg : Option Msg}
    (hok : r.ctl = .top ∧ r.goesOn st ∧ ∀ m ∈ msg, World.deliverable log j.world.position m)
    (deserializer : Deserializer) (now ts now' : ℤ) (sent : List Envelope) :
    Reads A st log deserializer (.poll msg now ts now') j ⟨{ j.world with
      run := some (r.poll A deserializer msg now ts now')
      position := World.advance j.world.position msg }, j.taken ++ BlueskyTrends.taken A deserializer ts msg,
      sent⟩ := by
  have hquiet : ∀ r' : Run Row, r'.eofPartitions = r.eofPartitions → ∀ x, some r' = some x →
      ∃ r, j.world.run = some r ∧ x.eofPartitions = r.eofPartitions := by
    rintro r' he x ⟨⟩
    exact ⟨r, hr, he⟩
  match msg, hok with
  | none, hok =>
    refine .nothing rfl rfl (List.append_nil _) (hquiet _ ?_)
    simp only [Run.poll]
    split <;> rfl
  | some ⟨some .partitionEof, some p, o, v⟩, hok =>
    refine .ended (p := p) ?_ rfl (List.append_nil _) ?_
    · simp only [World.eofOf, hr]
      exact if_pos ⟨hok.1, hok.2.1⟩
    · rintro x ⟨⟩
      exact ⟨r, hr, rfl⟩
  | some ⟨some .partitionEof, none, o, v⟩, hok => exact .nothing rfl rfl (List.append_nil _) (hquiet _ rfl)
  | some ⟨some .other, p, o, v⟩, hok => exact .nothing rfl rfl (List.append_nil _) (hquiet _ rfl)
  | some ⟨none, none, o, v⟩, hok => exact .nothing rfl rfl (List.append_nil _) (hquiet _ rfl)
  | some ⟨none, some p, none, v⟩, hok => exact .nothing rfl rfl (List.append_nil _) (hquiet _ rfl)
  | some ⟨none, some p, some o, v⟩, hok =>
    obtain ⟨hle, hrec, hskip⟩ := hok.2.2 _ rfl
    refine .record rfl ⟨now, now', rfl⟩ ⟨hrec, hle, hskip⟩ rfl rfl ?_
    rintro x ⟨⟩
    exact ⟨r, hr, Run.eofPartitions_data _ deserializer p o v now' ts⟩

/-- **What a step reads.** -/
theorem reads_step (j : Journal Row) (log : KafkaLog) (deserializer : Deserializer) (a : World.RunAct) :
    Reads A st log deserializer a j (j.step A st log (deserializer, a)) := by
  have hreport : ∀ i success, Reads A st log deserializer (.report i success) j
      (j.step A st log (deserializer, .report i success)) := by
    intro i success
    refine .nothing rfl (World.report_position _ i success) (List.append_nil _) fun r' hr' => ?_
    have hrun := (World.report_frame j.world i success).1
    exact ⟨r', hrun.symm.trans hr', rfl⟩
  have hstay : j.world.eofOf st a = none → (j.step A st log (deserializer, a)).world = j.world →
      (j.step A st log (deserializer, a)).taken = j.taken →
      Reads A st log deserializer a j (j.step A st log (deserializer, a)) := by
    intro he hw ht
    refine .nothing he (by rw [hw]) ht fun r' hr' => ?_
    rw [hw] at hr'
    exact ⟨r', hr', rfl⟩
  cases hr : j.world.run with
  | none =>
    have he := World.eofOf_none st hr a
    cases a with
    | report i success => exact hreport i success
    | poll | go | raise =>
      refine hstay he ?_ ?_
      · simp only [step, World.stepWith, World.runStep, hr]
      · simp only [step, takes, hr, List.append_nil]
  | some r =>
    cases a with
    | poll msg now ts now' =>
      by_cases hok : r.ctl = .top ∧ r.goesOn st ∧ ∀ m ∈ msg, World.deliverable log j.world.position m
      · have hstep : j.step A st log (deserializer, .poll msg now ts now') = ⟨{ j.world with
            run := some (r.poll A deserializer msg now ts now')
            position := World.advance j.world.position msg },
            j.taken ++ BlueskyTrends.taken A deserializer ts msg, j.sent ++ []⟩ := by
          simp only [step, World.stepWith, World.runStep, takes, sends, hr, if_pos hok]
        rw [hstep]
        exact reads_poll hr hok deserializer now ts now' _
      · refine hstay (World.eofOf_stay hr hok now ts now') ?_ ?_
        · simp only [step, World.stepWith, World.runStep, hr, if_neg hok]
        · simp only [step, takes, hr, if_neg hok, List.append_nil]
    | go now assignment =>
      refine .nothing rfl ?_ (List.append_nil _) fun r' hr' => ?_
      · simp only [step, World.stepWith, World.runStep, hr]
        exact World.apply_position _ _
      · simp only [step, World.stepWith, World.runStep, hr, Option.some.injEq] at hr'
        rw [← hr']
        exact ⟨r, hr, Run.eofPartitions_go r now assignment⟩
    | raise =>
      refine .nothing rfl ?_ (List.append_nil _) fun r' hr' => ?_
      · simp only [step, World.stepWith, World.runStep, hr]
      · simp only [step, World.stepWith, World.runStep, hr, Option.some.injEq] at hr'
        rw [← hr']
        exact ⟨r, hr, Run.eofPartitions_raise r⟩
    | report i success => exact hreport i success

end Journal

namespace Feed

/-- The consumer's position has reached the end of the partition. -/
def AtEnd (s : Feed Row) (p : ℤ) : Prop :=
  ∀ o < s.topic.logEnd p, s.journal.world.position p ≤ o → s.topic.log p o = none

instance (s : Feed Row) (p : ℤ) : Decidable (s.AtEnd p) := by
  unfold AtEnd
  infer_instance

/-- A run starts at the committed offsets. -/
def start (st : BronzeSettings) (topic : Topic) (w : World Row) (now now' : ℤ) : Feed Row :=
  ⟨.start st w now now', topic, fun _ => none⟩

variable (A st) in
def step (s : Feed Row) : FeedAct → Feed Row
  | .produce p skip value => { s with topic := s.topic.produce p skip value }
  | .run deserializer a =>
    match s.journal.world.eofOf st a with
    | none => { s with journal := s.journal.step A st s.topic.log (deserializer, a) }
    -- a partition reports its end when the position has reached it
    | some p =>
      if s.AtEnd p then { s with
        journal := s.journal.step A st s.topic.log (deserializer, a)
        eofEnd := Function.update s.eofEnd p (some (s.topic.logEnd p)) }
      else s

/-- The step polls the record, and the run takes it, decoded with the deserializer of that step. -/
def Polls (A : Archiver Row) (st : BronzeSettings) (D : Deserializer) (p : ℤ) (o : ℕ) (value : Option Bytes)
    (ts : ℤ) (s : Feed Row) (a : FeedAct) : Prop :=
  ∃ now now', a = .run D (.poll (some ⟨none, some p, some o, value⟩) now ts now') ∧
    (s.step A st a).journal.taken =
      s.journal.taken ++ [⟨p, o, A.decode (deserialize D value) ⟨p, o, ts⟩⟩]

/-- What has been polled so far: a record and its stamp, by the deserializer of the step. -/
abbrev Polled := Deserializer → ℤ → ℕ → Option Bytes → ℤ → Prop

/-- What a run on a topic has read, from the committed offsets of `w₀` on, in the polls `P`. -/
structure Read (A : Archiver Row) (st : BronzeSettings) (w₀ : World Row) (P : Polled) (s : Feed Row) : Prop where
  books : s.journal.Balanced A st w₀.table
  /-- The position is not past the log end, but for where the run started. -/
  position : ∀ p, s.journal.world.position p ≤ max (w₀.committed p) (s.topic.logEnd p)
  /-- A record passed is one taken. -/
  passed : ∀ p o value, w₀.committed p ≤ o → o < s.journal.world.position p → s.topic.log p o = some value →
    ∃ D ts, P D p o value ts ∧
      (⟨p, o, A.decode (deserialize D value) ⟨p, o, ts⟩⟩ : Taken Row) ∈ s.journal.taken
  below : ∀ x ∈ s.journal.taken, x.offset < s.topic.logEnd x.partition
  /-- An end reported has been reached. -/
  reached : ∀ p e, s.eofEnd p = some e → e ≤ s.topic.logEnd p ∧
    ∀ o value, o < e → s.topic.log p o = some value → o < s.journal.world.position p
  /-- A partition in `eof_partitions` has had nothing delivered since it last reported its end. -/
  ended : ∀ r, s.journal.world.run = some r → ∀ p ∈ r.eofPartitions, ∃ e, s.eofEnd p = some e ∧
    ∀ x ∈ s.journal.taken, x.partition = p → x.offset < e

variable {w₀ : World Row} {s : Feed Row} {P P' : Polled}

theorem Read.mono (h : s.Read A st w₀ P) (hP : ∀ D p o value ts, P D p o value ts → P' D p o value ts) :
    s.Read A st w₀ P' where
  books := h.books
  position := h.position
  passed := by
    intro p o value hfrom hpos hv
    obtain ⟨D, ts, hpolled, hx⟩ := h.passed p o value hfrom hpos hv
    exact ⟨D, ts, hP D p o value ts hpolled, hx⟩
  below := h.below
  reached := h.reached
  ended := h.ended

theorem read_start (hmax : 0 ≤ st.bronzeMaxRowsPerRun) (topic : Topic) (w₀ : World Row) (now now' : ℤ) :
    (start st topic w₀ now now').Read A st w₀ P where
  books := Journal.balanced_start hmax w₀ now now'
  position := fun p => le_max_left _ _
  passed := fun p o value h1 h2 => absurd h2 (not_lt.2 h1)
  below := by simp [start, Journal.start]
  reached := by simp [start]
  ended := by
    rintro r ⟨⟩ p hp
    cases hp

/-- A record is produced. -/
theorem Read.produce (h : s.Read A st w₀ P) (p : ℤ) (skip : ℕ) (value : Option Bytes) :
    Read A st w₀ P { s with topic := s.topic.produce p skip value } where
  books := h.books
  position := fun q => (h.position q).trans (max_le_max_left _ (s.topic.logEnd_le p skip value q))
  passed := by
    intro q o v h1 (h2 : o < s.journal.world.position q) h3
    have hpos := h.position q
    have hlt : o < s.topic.logEnd q := by
      by_contra hno
      rcases le_max_iff.1 hpos with hc | hc <;> omega
    simp only [s.topic.log_produce p skip value hlt] at h3
    exact h.passed q o v h1 h2 h3
  below := fun x hx => (h.below x hx).trans_le (s.topic.logEnd_le p skip value x.partition)
  reached := by
    intro q e he
    obtain ⟨hle, hread⟩ := h.reached q e he
    refine ⟨hle.trans (s.topic.logEnd_le p skip value q), fun o v ho hv => ?_⟩
    simp only [s.topic.log_produce p skip value (ho.trans_le hle)] at hv
    exact hread o v ho hv
  ended := h.ended

/-- A step that reads nothing. -/
theorem Read.frame (h : s.Read A st w₀ P) {j' : Journal Row} (hbooks : j'.Balanced A st w₀.table)
    (hp : j'.world.position = s.journal.world.position) (ht : j'.taken = s.journal.taken)
    (hr : ∀ r', j'.world.run = some r' →
      ∃ r, s.journal.world.run = some r ∧ r'.eofPartitions = r.eofPartitions) :
    Read A st w₀ P { s with journal := j' } where
  books := hbooks
  position := by rw [hp]; exact h.position
  passed := by rw [hp, ht]; exact h.passed
  below := by rw [ht]; exact h.below
  reached := by rw [hp]; exact h.reached
  ended := by
    intro r' hr' p hmem
    obtain ⟨r, hrun, he⟩ := hr r' hr'
    rw [he] at hmem
    rw [ht]
    exact h.ended r hrun p hmem

/-- A partition reports its end: all its records are behind the position, and so all taken from it below its
log end. -/
theorem Read.atEnd (h : s.Read A st w₀ P) {j' : Journal Row} {p : ℤ} (hend : s.AtEnd p)
    (hbooks : j'.Balanced A st w₀.table) (hp : j'.world.position = s.journal.world.position)
    (ht : j'.taken = s.journal.taken) (hr : ∀ r', j'.world.run = some r' →
      ∃ r, s.journal.world.run = some r ∧ r'.eofPartitions = p :: r.eofPartitions) :
    Read A st w₀ P { s with
      journal := j'
      eofEnd := Function.update s.eofEnd p (some (s.topic.logEnd p)) } where
  books := hbooks
  position := by rw [hp]; exact h.position
  passed := by rw [hp, ht]; exact h.passed
  below := by rw [ht]; exact h.below
  reached := by
    intro q e he
    simp only at he ⊢
    by_cases hq : q = p
    · subst hq
      rw [Function.update_self, Option.some.injEq] at he
      subst he
      refine ⟨le_rfl, fun o value ho hv => ?_⟩
      rw [hp]
      by_contra hno
      have hnone := hend o ho (not_lt.1 hno)
      simp only [hnone] at hv
      cases hv
    · rw [Function.update_of_ne hq] at he
      rw [hp]
      exact h.reached q e he
  ended := by
    intro r' hr' q hmem
    obtain ⟨r, hrun, he⟩ := hr r' hr'
    rw [he] at hmem
    simp only [ht]
    by_cases hq : q = p
    · subst hq
      refine ⟨s.topic.logEnd q, Function.update_self .., fun x hx hxq => ?_⟩
      have hbelow := h.below x hx
      rwa [hxq] at hbelow
    · rw [Function.update_of_ne hq]
      exact h.ended r hrun q (List.mem_of_ne_of_mem hq hmem)

/-- A record is delivered: its partition is not at its end any more. -/
theorem Read.record (h : s.Read A st w₀ P) {j' : Journal Row} {deserializer : Deserializer} {p ts : ℤ} {o : ℕ}
    {value : Option Bytes} (hP : P deserializer p o value ts) (hd : World.Delivers s.topic.log s.journal.world p o value)
    (hbooks : j'.Balanced A st w₀.table)
    (hp : j'.world.position = Function.update s.journal.world.position p (o + 1))
    (ht : j'.taken = s.journal.taken ++ [⟨p, o, A.decode (deserialize deserializer value) ⟨p, o, ts⟩⟩])
    (hr : ∀ r', j'.world.run = some r' →
      ∃ r, s.journal.world.run = some r ∧ r'.eofPartitions = r.eofPartitions.filter (· ≠ p)) :
    Read A st w₀ P { s with journal := j' } where
  books := hbooks
  position := by
    intro q
    rw [hp]
    by_cases hq : q = p
    · subst hq
      rw [Function.update_self]
      exact le_max_of_le_right (s.topic.below q o value hd.record)
    · rw [Function.update_of_ne hq]
      exact h.position q
  passed := by
    intro q o' value' h1 h2 h3
    rw [ht]
    by_cases hold : o' < s.journal.world.position q
    · obtain ⟨D, ts', hpolled, hmem⟩ := h.passed q o' value' h1 hold h3
      exact ⟨D, ts', hpolled, List.mem_append_left _ hmem⟩
    · -- only the record delivered lies between the old position and the new one
      rw [hp] at h2
      have hq : q = p := by
        by_contra hne
        rw [Function.update_of_ne hne] at h2
        exact hold h2
      subst hq
      rw [Function.update_self] at h2
      have ho : o' = o := by
        by_contra hne
        have hnone := hd.skipped o' (by omega) (not_lt.1 hold)
        simp only [hnone] at h3
        cases h3
      subst ho
      obtain rfl : value = value' := Option.some.inj (hd.record.symm.trans h3)
      exact ⟨deserializer, ts, hP, List.mem_append_right _ List.mem_cons_self⟩
  below := by
    intro x hx
    rw [ht] at hx
    rcases List.mem_append.1 hx with hx | hx
    · exact h.below x hx
    · rw [List.mem_singleton.1 hx]
      exact s.topic.below p o value hd.record
  reached := by
    intro q e he
    obtain ⟨hle, hread⟩ := h.reached q e he
    refine ⟨hle, fun o' value' ho hv => ?_⟩
    rw [hp]
    exact (hread o' value' ho hv).trans_le (World.le_update hd.le q)
  ended := by
    intro r' hr' q hmem
    obtain ⟨r, hrun, he⟩ := hr r' hr'
    rw [he] at hmem
    obtain ⟨hmem, hq⟩ := List.mem_filter.1 hmem
    obtain ⟨e, heof, hlt⟩ := h.ended r hrun q hmem
    refine ⟨e, heof, fun x hx hxq => ?_⟩
    rw [ht] at hx
    rcases List.mem_append.1 hx with hx | hx
    · exact hlt x hx hxq
    · rw [List.mem_singleton.1 hx] at hxq
      exact absurd hxq.symm (of_decide_eq_true hq)

/-- **A step keeps what was read**, and adds the record that it polls. -/
theorem read_step (h : s.Read A st w₀ P) (a : FeedAct) : (s.step A st a).Read A st w₀ fun D p o value ts =>
    P D p o value ts ∨ Polls A st D p o value ts s a := by
  cases a with
  | produce p skip value => exact (h.produce p skip value).mono fun _ _ _ _ _ => Or.inl
  | run deserializer a =>
    have hbooks : (s.journal.step A st s.topic.log (deserializer, a)).Balanced A st w₀.table :=
      Journal.balanced_step h.books (deserializer, a)
    have hreads : Journal.Reads A st s.topic.log deserializer a s.journal
      (s.journal.step A st s.topic.log (deserializer, a)) := Journal.reads_step ..
    have hold : s.Read A st w₀ fun D p o value ts =>
        P D p o value ts ∨ Polls A st D p o value ts s (.run deserializer a) := h.mono fun _ _ _ _ _ => Or.inl
    cases hreads with
    | nothing he hp ht hr =>
      simp only [step, he]
      exact hold.frame hbooks hp ht hr
    | ended he hp ht hr =>
      simp only [step, he]
      split
      · rename_i hend
        exact hold.atEnd hend hbooks hp ht hr
      · exact hold
    | @record p o value ts he ha hd hp ht hr =>
      have hstep : s.step A st (.run deserializer a) =
          { s with journal := s.journal.step A st s.topic.log (deserializer, a) } := by
        simp only [step, he]
      have hpolls : Polls A st deserializer p o value ts s (.run deserializer a) := by
        obtain ⟨now, now', rfl⟩ := ha
        refine ⟨now, now', rfl, ?_⟩
        rw [hstep]
        exact ht
      rw [hstep]
      exact hold.record (Or.inr hpolls) hd hbooks hp ht hr

/-- What a run has read, in its own polls. -/
theorem read_run (as : List FeedAct) (h : s.Read A st w₀ P) :
    (Trace.run (step A st) s as).Read A st w₀ fun D p o value ts =>
      P D p o value ts ∨ Trace.Sometime (step A st) (Polls A st D p o value ts) s as := by
  induction as generalizing s P with
  | nil => exact h.mono fun _ _ _ _ _ => Or.inl
  | cons a as ih => exact (ih (read_step h a)).mono fun _ _ _ _ _ => or_assoc.1

/-- Without a cap above 0 the run does not enter its loop. -/
def Unstarted (s : Feed Row) : Prop :=
  ∀ r, s.journal.world.run = some r → r.ctl.outside = true ∧ r.batch.rows = []

theorem outside_go {r : Run Row} (hgoes : r.goesOn st = false) (hout : r.ctl.outside = true)
    (hrows : r.batch.rows = []) (now : ℤ) (assignment : List ℤ) :
    (r.go A st now assignment).1.ctl.outside = true ∧ (r.go A st now assignment).1.batch.rows = [] := by
  have hempty : r.batch.isEmpty = true := List.isEmpty_iff.2 hrows
  unfold Run.go
  cases ht : r.ctl with
  | top =>
    simp only [hgoes, Bool.false_eq_true, if_false, Run.flush, hempty, if_true]
    exact ⟨rfl, hrows⟩
  | closing returned => exact ⟨rfl, hrows⟩
  | done returned => exact ⟨hout, hrows⟩
  | append | commit | idle | send | commitPast =>
    rw [ht] at hout
    cases hout

theorem unstarted_step (hcap : st.bronzeMaxRowsPerRun ≤ 0) (h : s.Unstarted) (a : FeedAct) :
    (s.step A st a).Unstarted := by
  have hgoes : ∀ r : Run Row, r.goesOn st = false := by
    intro r
    unfold Run.goesOn
    rw [decide_eq_false_iff_not]
    omega
  have hrun : ∀ (deserializer : Deserializer) (a : World.RunAct) (eofEnd : ℤ → Option ℕ),
      Unstarted { s with journal := s.journal.step A st s.topic.log (deserializer, a), eofEnd := eofEnd } := by
    intro deserializer a eofEnd r' hr'
    simp only [Journal.step, World.stepWith] at hr'
    cases hrun : s.journal.world.run with
    | none =>
      cases a with
      | report i success =>
        have hsame := (World.report_frame s.journal.world i success).1
        rw [World.runStep, hsame, hrun] at hr'
        cases hr'
      | poll | go | raise =>
        simp only [World.runStep, hrun] at hr'
        cases hr'
    | some r =>
      obtain ⟨hout, hrows⟩ := h r hrun
      cases a with
      | poll msg now ts now' =>
        simp only [World.runStep, hrun, hgoes r, Bool.false_eq_true, false_and, and_false, if_false,
          Option.some.injEq] at hr'
        exact hr' ▸ ⟨hout, hrows⟩
      | go now assignment =>
        simp only [World.runStep, hrun, Option.some.injEq] at hr'
        exact hr' ▸ outside_go (hgoes r) hout hrows now assignment
      | raise =>
        simp only [World.runStep, hrun, Option.some.injEq] at hr'
        rw [← hr']
        unfold Run.raise
        split <;> exact ⟨rfl, hrows⟩
      | report i success =>
        have hsame := (World.report_frame s.journal.world i success).1
        rw [World.runStep, hsame, hrun, Option.some.injEq] at hr'
        exact hr' ▸ ⟨hout, hrows⟩
  cases a with
  | produce p skip value => exact h
  | run deserializer a =>
    simp only [step]
    split
    · exact hrun deserializer a s.eofEnd
    · split
      · exact hrun deserializer a _
      · exact h

/-- The run of `as` from `s₀` has left its loop with an empty batch. For each assigned partition, of the records
from the committed offset up to the log end where it last reported its end, the decodable ones are appended and
the others sent to quarantine, each decoded in the step that has polled it; no other record of it is read. -/
def Complete (A : Archiver Row) (st : BronzeSettings) (s s₀ : Feed Row) (as : List FeedAct)
    (assignment : List ℤ) : Prop :=
  (∃ r, s.journal.world.run = some r ∧ r.ctl = .closing true ∧ r.batch.rows = []) ∧
  ∃ appended, s.journal.world.table = s₀.journal.world.table ++ appended ∧
    ∀ p ∈ assignment, ∃ e, s.eofEnd p = some e ∧
      (∀ x ∈ s.journal.taken, x.partition = p → x.offset < e) ∧
      ∀ o value, s₀.journal.world.committed p ≤ o → o < e → s.topic.log p o = some value →
        ∃ D ts, Trace.Sometime (step A st) (Polls A st D p o value ts) s₀ as ∧
          ((∃ row ∈ appended, A.decode (deserialize D value) ⟨p, o, ts⟩ = .ok row) ∨
            ∃ d, A.decode (deserialize D value) ⟨p, o, ts⟩ = .error d ∧ ⟨d, A.topic, p, o⟩ ∈ s.journal.sent)

/-- **A run at its stop check** has read in order, whatever its row cap: below 0 it does not get there. -/
theorem read_idle (A : Archiver Row) (st : BronzeSettings) (topic : Topic) (w : World Row) (now now' : ℤ)
    (as : List FeedAct) {r : Run Row}
    (hr : (Trace.run (Feed.step A st) (.start st topic w now now') as).journal.world.run = some r)
    (hidle : r.ctl = .idle) :
    (Trace.run (Feed.step A st) (.start st topic w now now') as).Read A st w fun D p o value ts =>
      Trace.Sometime (Feed.step A st) (Polls A st D p o value ts) (.start st topic w now now') as := by
  by_cases hcap : 0 ≤ st.bronzeMaxRowsPerRun
  · have hstart : (Feed.start st topic w now now').Read A st w fun _ _ _ _ _ => False :=
      Feed.read_start hcap topic w now now'
    exact (Feed.read_run as hstart).mono fun _ _ _ _ _ h => h.resolve_left not_false
  · have hstart : (Feed.start st topic w now now').Unstarted := by
      rintro r' ⟨⟩
      exact ⟨rfl, rfl⟩
    have hout : (Trace.run (Feed.step A st) (.start st topic w now now') as).Unstarted :=
      Trace.run_inv (I := Feed.Unstarted) (fun _ a h => Feed.unstarted_step (not_le.1 hcap).le h a) hstart as
    have hctl := (hout r hr).1
    rw [hidle] at hctl
    cases hctl

/-- The stop check of a drained run with an empty batch leaves the loop. -/
theorem step_stop {A : Archiver Row} {st : BronzeSettings} {s : Feed Row} {r : Run Row} {assignment : List ℤ}
    (hr : s.journal.world.run = some r) (hidle : r.ctl = .idle) (hempty : r.batch.isEmpty = true)
    (hdrained : r.drained assignment = true) (deserializer : Deserializer) (t : ℤ) :
    s.step A st (.run deserializer (.go t assignment)) =
      { s with journal := { s.journal with
        world := { s.journal.world with run := some { r with ctl := .closing true } } } } := by
  have hgo : r.go A st t assignment = ({ r with ctl := .closing true }, none) := by
    unfold Run.go
    simp only [hidle, hempty, hdrained, Bool.true_or, Bool.and_true, if_true, Run.flush, Next.ctl]
  have hs' : s.step A st (.run deserializer (.go t assignment)) =
      { s with journal := ⟨{ s.journal.world with run := some { r with ctl := .closing true } },
        s.journal.taken ++ [], s.journal.sent ++ []⟩ } := by
    simp only [Feed.step, World.eofOf, Journal.step, World.stepWith, World.runStep, Journal.takes,
      Journal.sends, hr, hgo]
    rfl
  rw [hs', List.append_nil, List.append_nil]

/-- **A record behind the position** has been decoded into a row, or into an envelope. -/
theorem Read.decoded {A : Archiver Row} {st : BronzeSettings} {w₀ : World Row} {s : Feed Row} {P : Polled}
    (h : s.Read A st w₀ P) {p : ℤ} {o : ℕ} {value : Option Bytes} (hfrom : w₀.committed p ≤ o)
    (hpos : o < s.journal.world.position p) (hv : s.topic.log p o = some value) :
    ∃ D ts, P D p o value ts ∧
      ((∃ row ∈ decodedRows s.journal.taken, A.decode (deserialize D value) ⟨p, o, ts⟩ = .ok row) ∨
        ∃ d, A.decode (deserialize D value) ⟨p, o, ts⟩ = .error d ∧
          ⟨d, A.topic, p, o⟩ ∈ envelopes A s.journal.taken) := by
  obtain ⟨D, ts, hpolled, hx⟩ := h.passed p o value hfrom hpos hv
  refine ⟨D, ts, hpolled, ?_⟩
  cases hdec : A.decode (deserialize D value) ⟨p, o, ts⟩ with
  | ok row =>
    rw [hdec] at hx
    exact Or.inl ⟨row, List.mem_filterMap.2 ⟨_, hx, rfl⟩, rfl⟩
  | error d =>
    rw [hdec] at hx
    exact Or.inr ⟨d, rfl, List.mem_filterMap.2 ⟨_, hx, rfl⟩⟩

end Feed

/-- **A drained run has read everything.** Whatever is appended to the topic while it reads, a run whose stop
check finds it drained has appended or sent to quarantine every record of its partitions up to the log ends
they last reported. -/
theorem drained_complete (A : Archiver Row) (st : BronzeSettings) (topic : Topic) (w : World Row) (now now' : ℤ)
    (as : List FeedAct) (deserializer : Deserializer) (t : ℤ) (assignment : List ℤ) {r : Run Row} :
    let s := Trace.run (Feed.step A st) (.start st topic w now now') as
    s.journal.world.run = some r → r.ctl = .idle → r.batch.isEmpty = true → r.drained assignment = true →
      (s.step A st (.run deserializer (.go t assignment))).Complete A st (.start st topic w now now') as
        assignment := by
  intro s hr hidle hempty hdrained
  have hread := Feed.read_idle A st topic w now now' as hr hidle
  have hrows : r.batch.rows = [] := List.isEmpty_iff.1 hempty
  obtain ⟨appended, htable, hbal⟩ := hread.books r hr (by rw [hidle]; rfl)
  have htaken : appended = decodedRows s.journal.taken := by
    have := hbal.rows_eq (by rw [hidle]; rfl)
    rwa [hrows, List.append_nil] at this
  have hsent : s.journal.sent = envelopes A s.journal.taken := hbal.sent_eq (by rw [hidle]; rfl)
  rw [Feed.step_stop hr hidle hempty hdrained]
  refine ⟨⟨_, rfl, rfl, hrows⟩, appended, htable, fun p hp => ?_⟩
  have hmem : p ∈ r.eofPartitions := by
    unfold Run.drained at hdrained
    rw [Bool.and_eq_true, List.all_eq_true] at hdrained
    exact of_decide_eq_true (hdrained.2 p hp)
  obtain ⟨e, he, hlt⟩ := hread.ended r hr p hmem
  refine ⟨e, he, hlt, fun o value hfrom hto hv => ?_⟩
  have hpos := (hread.reached p e he).2 o value hto hv
  rw [htaken, hsent]
  exact hread.decoded hfrom hpos hv

/-- A topic without a record. -/
def emptyTopic : Topic := ⟨fun _ _ => none, fun _ => 0, by simp⟩

/-- A post is read, its partition reports its end; then a value without a schema id is produced and read, and
the partition reports its end again. The post is flushed by age. -/
def producedLate : List FeedAct :=
  [.produce 0 0 (some postBytes), .run postDeserializer (.poll (messageAt 0 postBytes) 0 1 0),
    .run postDeserializer (.poll (some ⟨some .partitionEof, some 0, none, none⟩) 0 1 0),
    .produce 0 0 (some []), .run postDeserializer (.poll (messageAt 1 []) 0 1 0),
    .run postDeserializer (.go 0 [0]), .run postDeserializer (.go 0 [0]),
    .run postDeserializer (.poll (some ⟨some .partitionEof, some 0, none, none⟩) 0 1 0),
    .run postDeserializer (.poll none 6000000000 1 6000000000), .run postDeserializer (.go 6000000000 [0]),
    .run postDeserializer (.go 6000000000 [0])]

/-- The run at its stop check. -/
def lateFeed : Feed BronzeRow :=
  Trace.run (Feed.step (postsBronze asciiHost defaultSettings) defaultSettings)
    (.start defaultSettings emptyTopic (.init [] fun _ => 0) 0 0) producedLate

theorem drained_complete_late : lateFeed.eofEnd 0 = some 2 ∧
    (lateFeed.step (postsBronze asciiHost defaultSettings) defaultSettings
      (.run postDeserializer (.go 6000000000 [0]))).Complete (postsBronze asciiHost defaultSettings)
      defaultSettings (.start defaultSettings emptyTopic (.init [] fun _ => 0) 0 0) producedLate [0] := by
  have hstop : lateFeed.journal.world.run.map (fun r => (r.ctl, r.batch.isEmpty, r.drained [0])) =
      some (.idle, true, true) := by decide
  obtain ⟨r, hr, h⟩ := Option.map_eq_some_iff.1 hstop
  simp only [Prod.mk.injEq] at h
  exact ⟨by decide, drained_complete (postsBronze asciiHost defaultSettings) defaultSettings emptyTopic
    (.init [] fun _ => 0) 0 0 producedLate postDeserializer 6000000000 [0] hr h.1 h.2.1 h.2.2⟩

end BlueskyTrends
