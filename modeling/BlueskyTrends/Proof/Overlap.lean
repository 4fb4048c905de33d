import BlueskyTrends.Proof.ArchiverStep

/-!
# What a crash makes a run append again

* `sized_runStep`: a batch never holds more than its row bound.
* `overlap_move`: the rows a run has appended are committed, but for those of the flush in progress; a commit
  past an undecodable record and a later flush behind it uncover no row of an earlier batch.
* `appended_again_le`: **at most one batch is not committed**, at every point of a run, so that the run after a
  crash appends at most that many of its rows again.
-/

namespace BlueskyTrends

variable {Row : Type} [KafkaRow Row] {A : Archiver Row} {deserializer : Deserializer} {st : BronzeSettings}
  {log : KafkaLog} {r r' : Run Row} {w w' : World Row} {T old cur : List Row}

/-! ## The size of a batch -/

/-- The loop goes on from here without a flush. -/
def Ctl.loops : Ctl → Bool
  | .top | .idle | .send _ _ _ | .commitPast _ _ => true
  | _ => false

theorem Ctl.not_loops {c : Ctl} (h : c.failed = true) : c.loops = false := by
  cases c with
  | closing returned => rfl
  | done returned => rfl
  | _ => cases h

namespace Run

/-- The batch keeps to its row bound, and leaves room for a row where the loop goes on. -/
structure Sized (st : BronzeSettings) (r : Run Row) : Prop where
  bound : r.batch.maxRows = st.bronzeBatchMaxRows
  le : (r.batch.rows.length : ℤ) ≤ st.bronzeBatchMaxRows
  room : r.ctl.loops → (r.batch.rows.length : ℤ) < st.bronzeBatchMaxRows

theorem sized_init (hN : 1 ≤ st.bronzeBatchMaxRows) (now now' : ℤ) : Sized st (Run.init st now now' : Run Row) where
  bound := rfl
  le := by
    have hempty : (Run.init st now now' : Run Row).batch.rows = [] := rfl
    rw [hempty, List.length_nil]
    omega
  room := by
    intro _
    have hempty : (Run.init st now now' : Run Row).batch.rows = [] := rfl
    rw [hempty, List.length_nil]
    omega

namespace Sized

theorem frame (h : Sized st r) (hb : r'.batch = r.batch) (hc : r'.ctl.loops → r.ctl.loops) : Sized st r' where
  bound := by rw [hb, h.bound]
  le := by
    rw [hb]
    exact h.le
  room := by
    intro hl
    rw [hb]
    exact h.room (hc hl)

theorem accept (h : Sized st r) (hl : r.ctl.loops) {row : Row} (hb : r'.batch = r.batch.add row)
    (hc : r'.ctl = .append .top ∨ r'.ctl = .top ∧ (r.batch.rows.length : ℤ) + 1 < r.batch.maxRows) :
    Sized st r' := by
  have hroom := h.room hl
  have hlen : (r'.batch.rows.length : ℤ) = r.batch.rows.length + 1 := by
    rw [hb, Batch.add_rows, List.length_append, List.length_singleton]
    push_cast
    rfl
  refine ⟨?_, ?_, ?_⟩
  · rw [hb]
    exact h.bound
  · omega
  · intro hl'
    rcases hc with hc | ⟨-, hlt⟩
    · rw [hc] at hl'
      cases hl'
    · rw [h.bound] at hlt
      omega

end Sized

theorem sized_poll (h : Sized st r) (ht : r.ctl = .top) (msg : Option Msg) (now ts now' : ℤ) :
    Sized st (r.poll A deserializer msg now ts now') := by
  have hl : r.ctl.loops := by rw [ht]; rfl
  have hpolled := polled_poll A deserializer r msg now ts now'
  generalize r.poll A deserializer msg now ts now' = r' at hpolled ⊢
  generalize taken A deserializer ts msg = ys at hpolled
  cases hpolled with
  | quiet hb => exact h.frame hb fun _ => hl
  | reject hb => exact h.frame hb fun _ => hl
  | accept hb ha hc => exact h.accept hl hb hc

theorem sized_go (h : Sized st r) (hN : 1 ≤ st.bronzeBatchMaxRows) (now : ℤ) (assignment : List ℤ) :
    Sized st (r.go A st now assignment).1 := by
  have hflush : Sized st (r.flush .closing) := by
    refine h.frame rfl ?_
    unfold Run.flush
    split <;> rintro ⟨⟩
  unfold Run.go
  cases ht : r.ctl with
  | top =>
    simp only
    split
    · exact h
    · exact hflush
  | idle =>
    simp only
    split
    · exact hflush
    · exact h.frame rfl fun _ => by rw [ht]; rfl
  | commit next =>
    -- the batch is empty again
    refine ⟨h.bound, ?_, ?_⟩
    · simp only [Batch.clear_rows, List.length_nil]
      omega
    · intro _
      simp only [Batch.clear_rows, List.length_nil]
      omega
  | send d p o => exact h.frame rfl fun _ => by rw [ht]; rfl
  | commitPast p o => exact h.frame rfl fun _ => by rw [ht]; rfl
  | append next => exact h.frame rfl (by rintro ⟨⟩)
  | closing returned => exact h.frame rfl (by rintro ⟨⟩)
  | done returned => exact h

end Run

namespace World

/-- The batch of the run in progress keeps to its row bound. -/
def Sized (st : BronzeSettings) (w : World Row) : Prop := ∀ r, w.run = some r → r.Sized st

theorem sized_start (hN : 1 ≤ st.bronzeBatchMaxRows) (w : World Row) (now now' : ℤ) :
    (w.start st now now').Sized st := by
  intro r hr
  obtain rfl := Option.some.inj hr
  exact Run.sized_init hN now now'

/-- **A batch never holds more than its row bound.** -/
theorem sized_runStep (hN : 1 ≤ st.bronzeBatchMaxRows) (h : w.Sized st) (a : RunAct) :
    (w.runStep A deserializer st log a).Sized st := by
  intro r' hr'
  unfold runStep at hr'
  cases a with
  | poll msg now ts now' =>
    simp only at hr'
    split at hr'
    · rename_i r hr
      split at hr'
      · rename_i hok
        obtain rfl := Option.some.inj hr'
        exact Run.sized_poll (h r hr) hok.1 msg now ts now'
      · exact h r' hr'
    · exact h r' hr'
  | go now assignment =>
    simp only at hr'
    split at hr'
    · rename_i r hr
      obtain rfl := Option.some.inj hr'
      exact Run.sized_go (h r hr) hN now assignment
    · exact h r' hr'
  | raise =>
    simp only at hr'
    split at hr'
    · rename_i r hr
      obtain rfl := Option.some.inj hr'
      obtain ⟨hb, -, hf⟩ := raise_ctl r
      refine (h r hr).frame hb fun hl => ?_
      rw [Ctl.not_loops hf] at hl
      cases hl
    · exact h r' hr'
  | report i success =>
    exact h r' ((report_frame w i success).1.symm.trans hr')

/-! ## Rows and committed offsets -/

/-- The committed offset of the row's partition is past it. -/
def Past (w : World Row) (row : Row) : Prop := offsetOf row < w.committed (partitionOf row)

/-- The rows of earlier flushes (`old`) and of the one in progress (`cur`) against what a run holds. -/
structure Behind (w : World Row) (r : Run Row) (old cur : List Row) : Prop where
  flushing : cur = if r.ctl.flushes then r.batch.rows else []
  earlier : ∀ row ∈ old, offsetOf row < w.position (partitionOf row)
  held : ∀ row ∈ r.batch.rows, offsetOf row < w.position (partitionOf row)
  order : ∀ row ∈ old, ∀ x ∈ r.batch.rows, partitionOf x = partitionOf row → offsetOf row < offsetOf x
  inHand : ∀ p o, r.ctl.inHand = some (p, o) → w.position p = o + 1

/-- The rows a run has appended: those of earlier flushes are committed, those of the flush in progress are one
batch. -/
structure Overlap (st : BronzeSettings) (w : World Row) (old cur : List Row) : Prop where
  past : ∀ row ∈ old, w.Past row
  size : (cur.length : ℤ) ≤ st.bronzeBatchMaxRows
  run : ∀ r, w.run = some r → r.ctl.failed = false → w.Behind r old cur

/-- No flush is in progress where none is about to commit. -/
theorem Overlap.behind (h : w.Overlap st old cur) (hr : w.run = some r) (hf : r.ctl.failed = false)
    (hc : r.ctl.flushes = false) : cur = [] ∧ w.Behind r old [] := by
  have hbehind := h.run r hr hf
  have hcur : cur = [] := by
    have hflushing := hbehind.flushing
    rwa [hc] at hflushing
  subst hcur
  exact ⟨rfl, hbehind⟩

/-- A step that leaves what is held as it was. -/
theorem Behind.frame (h : w.Behind r old []) (hpos : w'.position = w.position) (hb : r'.batch = r.batch)
    (hf : r'.ctl.flushes = false) (hhand : r'.ctl.inHand = none) : w'.Behind r' old [] where
  flushing := by rw [hf]; rfl
  earlier := by rw [hpos]; exact h.earlier
  held := by rw [hpos, hb]; exact h.held
  order := by rw [hb]; exact h.order
  inHand := by rw [hhand]; rintro p o ⟨⟩

/-- An undecodable record is consumed. -/
theorem Behind.reject (h : w.Behind r old []) {p : ℤ} {o : ℕ} {value : Option Bytes} {d : DlqRow}
    (hd : Delivers log w p o value) (hpos : w'.position = Function.update w.position p (o + 1))
    (hb : r'.batch = r.batch) (hc : r'.ctl = .send d p o) : w'.Behind r' old [] where
  flushing := by rw [hc]; rfl
  earlier := by
    intro row hrow
    rw [hpos]
    exact (h.earlier row hrow).trans_le (le_update hd.le _)
  held := by
    intro row hrow
    rw [hb] at hrow
    rw [hpos]
    exact (h.held row hrow).trans_le (le_update hd.le _)
  order := by rw [hb]; exact h.order
  inHand := by
    intro q o' hq
    rw [hc] at hq
    obtain ⟨rfl, rfl⟩ := Prod.mk.inj (Option.some.inj hq)
    rw [hpos]
    exact Function.update_self ..

/-- A row is held: it is past all that was consumed of its partition. -/
theorem Behind.accept (h : w.Behind r old []) {p : ℤ} {o : ℕ} {value : Option Bytes} {row : Row}
    (hd : Delivers log w p o value) (hpos : w'.position = Function.update w.position p (o + 1))
    (hp : partitionOf row = p) (ho : offsetOf row = o) (hb : r'.batch = r.batch.add row)
    (hf : r'.ctl.flushes = false) (hhand : r'.ctl.inHand = none) : w'.Behind r' old [] where
  flushing := by rw [hf]; rfl
  earlier := by
    intro y hy
    rw [hpos]
    exact (h.earlier y hy).trans_le (le_update hd.le _)
  held := by
    intro y hy
    rw [hb, Batch.add_rows] at hy
    rw [hpos]
    rcases List.mem_append.1 hy with hy | hy
    · exact (h.held y hy).trans_le (le_update hd.le _)
    · obtain rfl := List.mem_singleton.1 hy
      rw [hp, ho, Function.update_self]
      omega
  order := by
    intro y hy z hz hsame
    rw [hb, Batch.add_rows] at hz
    rcases List.mem_append.1 hz with hz | hz
    · exact h.order y hy z hz hsame
    · obtain rfl := List.mem_singleton.1 hz
      have hlt := h.earlier y hy
      rw [← hsame, hp] at hlt
      have hle := hd.le
      omega
  inHand := by rw [hhand]; rintro q o' ⟨⟩

/-- **The commit of a flush** is past its rows, and past those of the flushes before: its offsets are those of
rows held, which came later. -/
theorem Behind.past_flush (h : w.Behind r old cur) (hpast : ∀ row ∈ old, w.Past row)
    (hw : Committed w r.batch.offsetItems r' w') : ∀ row ∈ old ++ r.batch.rows, w'.Past row := by
  intro row hrow
  unfold Past
  rw [hw.committed, Batch.lookup_offsetItems]
  rcases List.mem_append.1 hrow with hold | hheld
  · cases hm : r.batch.offsets.lookup (partitionOf row) with
    | none => exact hpast row hold
    | some m =>
      obtain ⟨x, hx, hxp, rfl⟩ := r.batch.held _ m hm
      have hlt := h.order row hold x hx hxp
      exact Nat.lt_succ_of_lt hlt
  · obtain ⟨m, hm, hle⟩ := r.batch.covers row hheld
    rw [hm]
    exact Nat.lt_succ_of_le hle

/-- **The commit past a record in hand** uncovers no row. -/
theorem Behind.past_record (h : w.Behind r old cur) (hpast : ∀ row ∈ old, w.Past row) {p : ℤ} {o : ℕ}
    (hhand : r.ctl.inHand = some (p, o)) (hw : Committed w [(p, o)] r' w') :
    ∀ row ∈ old, w'.Past row := by
  intro row hrow
  unfold Past
  rw [hw.past]
  split
  · rename_i hq
    have hlt := h.earlier row hrow
    have hpos := h.inHand p o hhand
    rw [hq] at hlt
    omega
  · exact hpast row hrow

theorem overlap_start (hN : 1 ≤ st.bronzeBatchMaxRows) (w : World Row) (now now' : ℤ) :
    (w.start st now now').Overlap st [] [] where
  past := by simp
  size := by
    rw [List.length_nil]
    omega
  run := by
    intro r hr _
    obtain rfl := Option.some.inj hr
    exact ⟨rfl, by simp, by simp [Run.init, Batch.init], by simp, by simp [Run.init, Ctl.inHand]⟩

/-- **The rows appended stay committed**, but for those of the flush in progress. -/
theorem overlap_move (h : w.Overlap st old cur) (hs : w.Sized st) (htable : w.table = T ++ (old ++ cur))
    {a : RunAct} (hm : Move A deserializer log w a w') :
    ∃ old' cur', w'.table = T ++ (old' ++ cur') ∧ w'.Overlap st old' cur' := by
  cases hm with
  | stay => exact ⟨old, cur, htable, h⟩
  | @quiet _ r r' hr hb hc hbusy =>
    refine ⟨old, cur, htable, h.past, h.size, ?_⟩
    intro x hx hf
    obtain rfl := Option.some.inj hx
    -- a run that goes on was at no commit
    have hcalm : r.ctl.calm = true := by
      cases hc : r.ctl.calm with
      | true => rfl
      | false =>
        rw [hbusy (Or.inl hc)] at hf
        cases hf
    have hgood : r.ctl.failed = false := by
      cases hc : r.ctl.failed with
      | false => rfl
      | true =>
        rw [hbusy (Or.inr hc)] at hf
        cases hf
    obtain ⟨rfl, hbehind⟩ := h.behind hr hgood (Ctl.flushes_calm hcalm)
    exact hbehind.frame rfl hb (Ctl.flushes_calm hc) (Ctl.inHand_calm hc)
  | @reject _ r r' p o value d hr ht hd hv hb hc =>
    obtain ⟨rfl, hbehind⟩ := h.behind hr (by rw [ht]; rfl) (by rw [ht]; rfl)
    refine ⟨old, [], htable, h.past, h.size, ?_⟩
    intro x hx _
    obtain rfl := Option.some.inj hx
    exact hbehind.reject hd rfl hb hc
  | @accept _ r r' p o value row hr ht hd hv hp ho hb hc =>
    obtain ⟨rfl, hbehind⟩ := h.behind hr (by rw [ht]; rfl) (by rw [ht]; rfl)
    have hf' : r'.ctl.flushes = false := by rcases hc with hc | hc <;> rw [hc] <;> rfl
    have hhand : r'.ctl.inHand = none := by rcases hc with hc | hc <;> rw [hc] <;> rfl
    refine ⟨old, [], htable, h.past, h.size, ?_⟩
    intro x hx _
    obtain rfl := Option.some.inj hx
    exact hbehind.accept hd rfl hp ho hb hf' hhand
  | @append _ _ r next hr ht =>
    obtain ⟨rfl, hbehind⟩ := h.behind hr (by rw [ht]; rfl) (by rw [ht]; rfl)
    refine ⟨old, r.batch.rows, ?_, h.past, (hs r hr).le, ?_⟩
    · rw [htable, List.append_nil, List.append_assoc]
    · intro x hx _
      obtain rfl := Option.some.inj hx
      exact ⟨rfl, hbehind.earlier, hbehind.held, hbehind.order, by rintro p o ⟨⟩⟩
  | @commit _ _ r r' next _ hr ht hb hc hw =>
    have hbehind := h.run r hr (by rw [ht]; rfl)
    have hcur : cur = r.batch.rows := by
      have hflushing := hbehind.flushing
      rwa [ht] at hflushing
    have hsize := h.size
    have hcalm : r'.ctl.calm = true := by rw [hc]; exact next.calm
    refine ⟨old ++ cur, [], ?_, ?_, ?_, ?_⟩
    · rw [hw.table, htable, List.append_nil]
    · rw [hcur]
      exact hbehind.past_flush h.past hw
    · rw [List.length_nil]
      omega
    · intro x hx _
      obtain rfl := Option.some.inj (hw.run.symm.trans hx)
      refine ⟨by rw [Ctl.flushes_calm hcalm]; rfl, ?_, by simp [hb], by simp [hb], ?_⟩
      · intro row hrow
        rw [hw.position]
        rcases List.mem_append.1 hrow with hrow | hrow
        · exact hbehind.earlier row hrow
        · exact hbehind.held row (hcur ▸ hrow)
      · rw [Ctl.inHand_calm hcalm]
        rintro p o ⟨⟩
  | @send _ _ r r' d p o e hr ht hb hc =>
    obtain ⟨rfl, hbehind⟩ := h.behind hr (by rw [ht]; rfl) (by rw [ht]; rfl)
    have hhand := hbehind.inHand
    rw [ht] at hhand
    refine ⟨old, [], htable, h.past, h.size, ?_⟩
    intro x hx _
    obtain rfl := Option.some.inj hx
    exact ⟨by rw [hc]; rfl, hbehind.earlier, by rw [hb]; exact hbehind.held, by rw [hb]; exact hbehind.order,
      by rw [hc]; exact hhand⟩
  | @commitPast _ _ r r' p o _ hr ht hb hc hw =>
    obtain ⟨rfl, hbehind⟩ := h.behind hr (by rw [ht]; rfl) (by rw [ht]; rfl)
    refine ⟨old, [], by rw [hw.table, htable], hbehind.past_record h.past (by rw [ht]; rfl) hw, h.size, ?_⟩
    intro x hx _
    obtain rfl := Option.some.inj (hw.run.symm.trans hx)
    exact hbehind.frame hw.position hb (by rw [hc]; rfl) (by rw [hc]; rfl)
  | report =>
    refine ⟨old, cur, htable, h.past, h.size, ?_⟩
    intro x hx hf
    obtain ⟨h1, h2, h3, h4, h5⟩ := h.run x hx hf
    exact ⟨h1, h2, h3, h4, h5⟩

variable (A st log) in
/-- **Throughout a run** the rows it has appended are committed, but for one flush. -/
theorem overlap_run (hN : 1 ≤ st.bronzeBatchMaxRows) (w : World Row) (now now' : ℤ)
    (as : List (Deserializer × RunAct)) :
    ∃ old cur, (Trace.run (stepWith A st log) (w.start st now now') as).table = w.table ++ (old ++ cur) ∧
      (Trace.run (stepWith A st log) (w.start st now now') as).Overlap st old cur := by
  let I : World Row → Prop := fun s =>
    (∃ old cur, s.table = w.table ++ (old ++ cur) ∧ s.Overlap st old cur) ∧ s.Sized st
  have hstep : ∀ s x, I s → I (stepWith A st log s x) := by
    rintro s x ⟨⟨old, cur, htable, hover⟩, hsized⟩
    exact ⟨overlap_move hover hsized htable (move_runStep A x.1 st log s x.2), sized_runStep hN hsized x.2⟩
  have hstart : I (w.start st now now') :=
    ⟨⟨[], [], by simp [start], overlap_start hN w now now'⟩, sized_start hN w now now'⟩
  exact (Trace.run_inv hstep hstart as).1

/-- Of the rows appended, those not below the committed offsets are at most one batch. -/
theorem Overlap.count (h : w.Overlap st old cur) (P : Row → Prop) [DecidablePred P]
    (hP : ∀ row, P row → w.committed (partitionOf row) ≤ offsetOf row) :
    (((old ++ cur).filter fun row => P row).length : ℤ) ≤ st.bronzeBatchMaxRows := by
  have hold : old.filter (fun row => P row) = [] := by
    refine List.filter_eq_nil_iff.2 ?_
    intro row hrow hmem
    have hlt : offsetOf row < w.committed (partitionOf row) := h.past row hrow
    have hle := hP row (of_decide_eq_true hmem)
    omega
  have hcur := List.length_filter_le (fun row => decide (P row)) cur
  have hsize := h.size
  rw [List.filter_append, hold, List.nil_append]
  omega

/-! ## The run after a crash -/

/-- A run from the committed offsets `c₀` has read nothing below them. -/
structure Above (c₀ : ℤ → ℕ) (w : World Row) (again : List Row) : Prop where
  position : ∀ p, c₀ p ≤ w.position p
  table : ∀ row ∈ again, c₀ (partitionOf row) ≤ offsetOf row
  run : ∀ r, w.run = some r → ∀ row ∈ r.batch.rows, c₀ (partitionOf row) ≤ offsetOf row

theorem above_start (w : World Row) (now now' : ℤ) : (w.start st now now').Above w.committed [] where
  position := fun _ => le_rfl
  table := by simp
  run := by
    intro r hr
    obtain rfl := Option.some.inj hr
    simp [Run.init, Batch.init]

theorem above_move {c₀ : ℤ → ℕ} {again : List Row} (h : w.Above c₀ again) (htable : w.table = T ++ again)
    {a : RunAct} (hm : Move A deserializer log w a w') :
    ∃ again', w'.table = T ++ again' ∧ w'.Above c₀ again' := by
  have hframe : ∀ {r r' : Run Row}, w.run = some r → r'.batch = r.batch →
      ∀ x, some r' = some x → ∀ row ∈ x.batch.rows, c₀ (partitionOf row) ≤ offsetOf row := by
    intro r r' hr hb x hx
    obtain rfl := Option.some.inj hx
    rw [hb]
    exact h.run r hr
  cases hm with
  | stay => exact ⟨again, htable, h⟩
  | quiet hr hb => exact ⟨again, htable, h.position, h.table, hframe hr hb⟩
  | reject hr _ hd _ hb =>
    exact ⟨again, htable, fun q => (h.position q).trans (le_update hd.le q), h.table, hframe hr hb⟩
  | @accept _ r r' p o value row hr ht hd hv hp ho hb hc =>
    refine ⟨again, htable, fun q => (h.position q).trans (le_update hd.le q), h.table, ?_⟩
    intro x hx y hy
    obtain rfl := Option.some.inj hx
    rw [hb, Batch.add_rows] at hy
    rcases List.mem_append.1 hy with hy | hy
    · exact h.run r hr y hy
    · obtain rfl := List.mem_singleton.1 hy
      rw [hp, ho]
      exact (h.position p).trans hd.le
  | @append _ _ r next hr ht =>
    refine ⟨again ++ r.batch.rows, ?_, h.position, ?_, hframe hr rfl⟩
    · rw [htable, List.append_assoc]
    · intro row hrow
      rcases List.mem_append.1 hrow with hrow | hrow
      · exact h.table row hrow
      · exact h.run r hr row hrow
  | commit hr ht hb hc hw =>
    refine ⟨again, by rw [hw.table, htable], by rw [hw.position]; exact h.position, h.table, ?_⟩
    intro x hx
    obtain rfl := Option.some.inj (hw.run.symm.trans hx)
    simp [hb]
  | send hr ht hb => exact ⟨again, htable, h.position, h.table, hframe hr hb⟩
  | commitPast hr ht hb hc hw =>
    refine ⟨again, by rw [hw.table, htable], by rw [hw.position]; exact h.position, h.table, ?_⟩
    rw [hw.run]
    exact hframe hr hb
  | report => exact ⟨again, htable, h.position, h.table, h.run⟩

variable (A st log) in
theorem above_run (w : World Row) (now now' : ℤ) (as : List (Deserializer × RunAct)) :
    ∃ again, (Trace.run (stepWith A st log) (w.start st now now') as).table = w.table ++ again ∧
      (Trace.run (stepWith A st log) (w.start st now now') as).Above w.committed again := by
  refine Trace.run_inv (I := fun s : World Row => ∃ again, s.table = w.table ++ again ∧
    s.Above w.committed again) ?_ ?_ as
  · rintro s x ⟨again, hagain, habove⟩
    exact above_move habove hagain (move_runStep A x.1 st log s x.2)
  · exact ⟨[], by simp [start], above_start w now now'⟩

end World

/-- The record a row is of. -/
def placeOf (row : Row) : ℤ × ℕ := (partitionOf row, offsetOf row)

/-- **At most one batch is appended again.** At every point of a run, of the rows it has appended at most
one batch is not below the committed offsets; after a crash there, the next run appends at most that many of
them again, whatever is polled and whatever it decodes to. -/
theorem appended_again_le (A : Archiver Row) (st : BronzeSettings) (log log' : KafkaLog)
    (hN : 1 ≤ st.bronzeBatchMaxRows) (w : World Row) (now now' : ℤ)
    (as : List (Deserializer × World.RunAct)) :
    let w₁ := Trace.run (World.stepWith A st log) (w.start st now now') as
    ∃ appended, w₁.table = w.table ++ appended ∧
      ((appended.filter fun row => w₁.committed (partitionOf row) ≤ offsetOf row).length : ℤ) ≤
        st.bronzeBatchMaxRows ∧
      ∀ now₂ now₂' bs,
        let w₂ := Trace.run (World.stepWith A st log') ({ w₁ with run := none }.start st now₂ now₂') bs
        ∃ again, w₂.table = w₁.table ++ again ∧
          ((appended.filter fun row => placeOf row ∈ again.map placeOf).length : ℤ) ≤
            st.bronzeBatchMaxRows := by
  intro w₁
  obtain ⟨old, cur, htable, hover⟩ := World.overlap_run A st log hN w now now' as
  refine ⟨old ++ cur, htable, hover.count _ fun _ h => h, ?_⟩
  intro now₂ now₂' bs w₂
  obtain ⟨again, hagain, habove⟩ := World.above_run A st log' { w₁ with run := none } now₂ now₂' bs
  -- the next run reads nothing below the committed offsets
  refine ⟨again, hagain, hover.count _ ?_⟩
  intro row hrow
  obtain ⟨x, hx, hplace⟩ := List.mem_map.1 hrow
  have hpartition : partitionOf x = partitionOf row := congrArg Prod.fst hplace
  have hoffset : offsetOf x = offsetOf row := congrArg Prod.snd hplace
  rw [← hpartition, ← hoffset]
  exact habove.table x hx

/-- A batch of one row. -/
def oneRowSettings : BronzeSettings := { defaultSettings with bronzeBatchMaxRows := 1 }

/-- A run that is cut off between the append of its first row and the commit of it. -/
def cutOffRun : World BronzeRow :=
  Trace.run (World.stepWith (postsBronze asciiHost oneRowSettings) oneRowSettings (topicOf [postBytes, []]))
    ((World.init [] fun _ => 0).start oneRowSettings 0 0)
    [(postDeserializer, .poll (messageAt 0 postBytes) 0 1 0), (postDeserializer, .go 0 [])]

theorem appended_again_le_cut_off : ∃ appended, cutOffRun.table = [] ++ appended ∧
    ((appended.filter fun row => cutOffRun.committed (partitionOf row) ≤ offsetOf row).length : ℤ) ≤ 1 ∧
    ∀ now₂ now₂' bs,
      let w₂ := Trace.run (World.stepWith (postsBronze asciiHost oneRowSettings) oneRowSettings
        (topicOf [postBytes, []])) ({ cutOffRun with run := none }.start oneRowSettings now₂ now₂') bs
      ∃ again, w₂.table = cutOffRun.table ++ again ∧
        ((appended.filter fun row => placeOf row ∈ again.map placeOf).length : ℤ) ≤ 1 :=
  appended_again_le (postsBronze asciiHost oneRowSettings) oneRowSettings (topicOf [postBytes, []])
    (topicOf [postBytes, []]) (by decide) (.init [] fun _ => 0) 0 0 _

end BlueskyTrends
