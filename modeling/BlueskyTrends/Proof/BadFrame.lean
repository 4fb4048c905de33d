import BlueskyTrends.Ingest.Jetstream
import BlueskyTrends.Lib.Trace
import Mathlib.Data.List.DropRight

/-!
# A bad frame in the stream

The server keeps a log of text frames and sends a connection what lies after its cursor. A frame that cannot be
decoded ends the connection like a network failure, and the cursor only moves on well-formed events.

* `stuck_run`: from the first bad frame on, every connection ends at that frame.
* `delivered_iff`: every well-formed event is yielded exactly if no bad frame stands before one of them.
-/

namespace BlueskyTrends

open Client

variable {st : BackoffSettings} {cursor : Option ℤ}

/-- The integer `time_us` of a frame. -/
def Frame.time? (f : Frame) : Option ℤ := f.read.bind fun x => x.2.asInt?

/-- The server: its frames are bad, or events with strictly increasing integers as `time_us`. -/
structure FrameLog where
  frames : List Frame
  timed : ∀ f ∈ frames, ∀ x, f.read = some x → ∃ t, x.2 = .int t
  sorted : frames.Pairwise fun f g => ∀ t ∈ f.time?, ∀ t' ∈ g.time?, t < t'

namespace FrameLog

variable (log : FrameLog)

/-- What a connection is sent: the frames after the event at its cursor, or all of them. -/
def sends : Option ℤ → List Frame
  | some k => log.frames.rtakeWhile fun f => !f.time?.any (· ≤ k)
  | none => log.frames

/-- A connection with the client's cursor. When everything is read, the server closes it or it drops. -/
def connection (st : BackoffSettings) (c : Client) (ending : Bool × ℚ) : Client :=
  c.step st ⟨.opened (log.sends c.latestCursor) ending.1, ending.2⟩

/-- The client that starts at `cursor`, after `n` connections. -/
def connections (st : BackoffSettings) (cursor : Option ℤ) (endings : ℕ → Bool × ℚ) (n : ℕ) : Client :=
  Trace.run (log.connection st) (init cursor) ((List.range n).map endings)

variable {log}

variable (log) in
theorem sends_suffix (k : Option ℤ) : log.sends k <:+ log.frames := by
  cases k with
  | none => exact List.suffix_rfl
  | some k => exact List.rtakeWhile_suffix _ _

theorem time_of_read {f : Frame} {x : Val × Val} (hf : f ∈ log.frames) (hx : f.read = some x) :
    ∃ t, x.2.asInt? = some t ∧ f.time? = some t := by
  obtain ⟨t, ht⟩ := log.timed f hf x hx
  have hint : x.2.asInt? = some t := by rw [ht]; rfl
  exact ⟨t, hint, by rw [Frame.time?, hx, Option.bind_some, hint]⟩

/-- What is sent to a client that has yielded the event `f` last. -/
theorem sends_after {before rest : List Frame} {f : Frame} {k : ℤ} (h : log.frames = before ++ f :: rest)
    (hk : f.time? = some k) : log.sends (some k) = rest := by
  have hsorted := log.sorted
  rw [h, List.pairwise_append, List.pairwise_cons] at hsorted
  have hlater : ∀ g ∈ rest.reverse, (!g.time?.any (· ≤ k)) = true := by
    intro g hg
    have hlt := hsorted.2.1.1 g (List.mem_reverse.1 hg) k hk
    cases ht : g.time? with
    | none => rfl
    | some t =>
      have hkt := hlt t ht
      simpa using hkt
  have hstop : (f :: before.reverse).takeWhile (fun g => !g.time?.any (· ≤ k)) = [] := by simp [hk]
  rw [sends, List.rtakeWhile, h, List.reverse_append, List.reverse_cons, List.append_assoc,
    List.takeWhile_append_of_pos hlater, List.singleton_append, hstop, List.append_nil, List.reverse_reverse]

end FrameLog

/-- The events a client has yielded. -/
def yielded (effects : List ClientEffect) : List Val :=
  effects.filterMap fun
    | .yield event => some event
    | _ => none

theorem yielded_handle (st : BackoffSettings) (c : Client) (rand : ℚ) :
    yielded (c.handle st rand).effects = yielded c.effects ∧
      (c.handle st rand).latestCursor = c.latestCursor := by
  unfold Client.handle
  cases backoffDelay st c.attempt rand with
  | ok d => exact ⟨by simp [yielded, emit], rfl⟩
  | error e => exact ⟨rfl, rfl⟩

/-- **What an iteration adds**: the events of its connection, and the cursor of the last of them. -/
theorem yielded_step (st : BackoffSettings) {c : Client} (h : c.raised = none) (a : Attempt) :
    yielded (c.step st a).effects = yielded c.effects ++ a.yields.map Prod.fst ∧
      (c.step st a).latestCursor = (lastTime a.yields).or c.latestCursor := by
  have hopened : yielded (c.opened a).effects = yielded c.effects ++ a.yields.map Prod.fst := by
    have hevents : ∀ xs : List (Val × Val), yielded (xs.map fun x => .yield x.1) = xs.map Prod.fst := by
      intro xs
      induction xs with
      | nil => rfl
      | cons x xs ih =>
        have hcons : yielded (.yield x.1 :: xs.map fun x => .yield x.1) =
            x.1 :: yielded (xs.map fun x => .yield x.1) := rfl
        rw [List.map_cons, hcons, ih, List.map_cons]
    rw [← hevents]
    simp [opened, yielded]
  obtain ⟨hyield, hlatest⟩ := yielded_handle st (c.opened a) a.rand
  rw [step_eq h]
  split
  · exact ⟨hyield.trans hopened, hlatest⟩
  · exact ⟨hopened, rfl⟩

/-- Well-formed frames, then a bad one. -/
theorem readable_append {good rest : List Frame} {bad : Frame} (hgood : ∀ f ∈ good, f.read.isSome)
    (hbad : bad.read = none) : readable (good ++ bad :: rest) = good.filterMap Frame.read := by
  induction good with
  | nil => simp [readable, hbad]
  | cons f good ih =>
    obtain ⟨x, hx⟩ := Option.isSome_iff_exists.1 (hgood f List.mem_cons_self)
    have htail := ih fun g hg => hgood g (List.mem_cons_of_mem _ hg)
    rw [List.cons_append, readable, hx, List.filterMap_cons_some hx, htail]

/-- The event of a frame fixes what is read of it. -/
theorem read_eq {f g : Frame} {x y : Val × Val} (hf : f.read = some x) (hg : g.read = some y) (h : x.1 = y.1) :
    x = y := by
  have hread : ∀ {f : Frame} {x : Val × Val}, f.read = some x → (x.1.get "time_us").toOption = some x.2 := by
    intro f x hf
    simp only [Frame.read, Option.bind_eq_bind, Option.bind_eq_some_iff, Option.pure_def] at hf
    obtain ⟨event, -, ts, hts, hx⟩ := hf
    cases hx
    exact hts
  have htime := (hread hf).symm.trans ((congrArg (fun v => (Val.get v "time_us").toOption) h).trans (hread hg))
  exact Prod.ext h (Option.some.inj htime)

/-- **The cursor follows what is read**: a client that has read some of the frames sent is next sent the others. -/
theorem FrameLog.sends_next {log : FrameLog} {todo rest : List Frame} {k : Option ℤ}
    (hgood : ∀ f ∈ todo, f.read.isSome) (h : log.sends k = todo ++ rest) :
    log.sends ((lastTime (todo.filterMap Frame.read)).or k) = rest := by
  rcases List.eq_nil_or_concat todo with rfl | ⟨before, f, rfl⟩
  · exact h
  · -- the last event read sets the cursor
    obtain ⟨x, hx⟩ := Option.isSome_iff_exists.1 (hgood f (by simp))
    obtain ⟨head, hhead⟩ := FrameLog.sends_suffix log k
    have hframes : log.frames = (head ++ before) ++ f :: rest := by
      rw [← hhead, h]
      simp
    have hmem : f ∈ log.frames := by
      rw [hframes]
      simp
    obtain ⟨t, htx, ht⟩ := FrameLog.time_of_read hmem hx
    have hlast : lastTime ((before.concat f).filterMap Frame.read) = some t := by
      simp [lastTime, List.filterMap_append, hx, htx]
    rw [hlast]
    exact FrameLog.sends_after hframes ht

/-! ## Stuck at the first bad frame -/

/-- The client has yielded events of `good` only, and is next sent what is left of them and then the bad frame. -/
structure Stuck (log : FrameLog) (good : List Frame) (bad : Frame) (rest : List Frame) (c : Client) : Prop where
  next : ∃ todo, todo <:+ good ∧ log.sends c.latestCursor = todo ++ bad :: rest
  yielded : ∀ e ∈ yielded c.effects, ∃ f ∈ good, ∃ x, f.read = some x ∧ x.1 = e

variable {log : FrameLog} {good rest : List Frame} {bad : Frame} {c : Client}

/-- **One more connection** ends at the bad frame. -/
theorem stuck_step (hgood : ∀ f ∈ good, f.read.isSome) (hbad : bad.read = none) (h : Stuck log good bad rest c)
    (ending : Bool × ℚ) : Stuck log good bad rest (log.connection st c ending) := by
  obtain ⟨todo, htodo, hsends⟩ := h.next
  cases hc : c.raised with
  | some e =>
    have hstep : log.connection st c ending = c := by simp [FrameLog.connection, step, hc]
    rw [hstep]
    exact h
  | none =>
    obtain ⟨hyield, hlatest⟩ := yielded_step st hc ⟨.opened (log.sends c.latestCursor) ending.1, ending.2⟩
    have hread : (Attempt.mk (.opened (log.sends c.latestCursor) ending.1) ending.2).yields =
        todo.filterMap Frame.read := by
      change readable (log.sends c.latestCursor) = _
      rw [hsends]
      exact readable_append (fun f hf => hgood f (htodo.subset hf)) hbad
    rw [hread] at hyield hlatest
    constructor
    · refine ⟨[], List.nil_suffix, ?_⟩
      rw [FrameLog.connection, hlatest]
      exact FrameLog.sends_next (fun f hf => hgood f (htodo.subset hf)) hsends
    · intro e he
      rw [FrameLog.connection, hyield] at he
      rcases List.mem_append.1 he with he | he
      · exact h.yielded e he
      · obtain ⟨x, hx, rfl⟩ := List.mem_map.1 he
        obtain ⟨f, hf, hfx⟩ := List.mem_filterMap.1 hx
        exact ⟨f, htodo.subset hf, x, hfx, rfl⟩

/-- **Any number of connections** yields what lies before the first bad frame, and no more. -/
theorem stuck_run (hgood : ∀ f ∈ good, f.read.isSome) (hbad : bad.read = none)
    (hsends : log.sends cursor = good ++ bad :: rest) (endings : ℕ → Bool × ℚ) (n : ℕ) :
    Stuck log good bad rest (log.connections st cursor endings n) := by
  have hinit : Stuck log good bad rest (init cursor) :=
    ⟨⟨good, List.suffix_rfl, hsends⟩, by simp [init, BlueskyTrends.yielded]⟩
  exact Trace.run_inv (I := Stuck log good bad rest) (fun c ending h => stuck_step hgood hbad h ending) hinit _

/-- A well-formed frame behind the first bad one is not yielded. -/
theorem not_yielded {g : Frame} {y : Val × Val} (hgood : ∀ f ∈ good, f.read.isSome) (hbad : bad.read = none)
    (hsends : log.sends cursor = good ++ bad :: rest) (hg : g ∈ rest) (hy : g.read = some y)
    (endings : ℕ → Bool × ℚ) (n : ℕ) : y.1 ∉ yielded (log.connections st cursor endings n).effects := by
  intro hmem
  obtain ⟨f, hf, x, hx, hxy⟩ := (stuck_run hgood hbad hsends endings n).yielded _ hmem
  obtain rfl := read_eq hx hy hxy
  -- the two frames carry one time, against the order of the log
  have hsorted := log.sorted.sublist (FrameLog.sends_suffix log cursor).sublist
  rw [hsends, List.pairwise_append] at hsorted
  have hlt := hsorted.2.2 f hf g (List.mem_cons_of_mem _ hg)
  have hfmem : f ∈ log.frames := by
    refine (FrameLog.sends_suffix log cursor).subset ?_
    rw [hsends]
    exact List.mem_append_left _ hf
  obtain ⟨k, -, hk⟩ := FrameLog.time_of_read hfmem hx
  have hkg : g.time? = some k := by
    rw [← hk, Frame.time?, Frame.time?, hx, hy]
  exact lt_irrefl k (hlt k hk k hkg)

/-- No bad frame stands before a well-formed one. -/
def BadLast (frames : List Frame) : Prop :=
  ∀ before f rest, frames = before ++ f :: rest → f.read = none → ∀ g ∈ rest, g.read = none

theorem BadLast.tail {f : Frame} {frames : List Frame} (h : BadLast (f :: frames)) : BadLast frames := by
  intro before g rest hsplit
  exact h (f :: before) g rest (by rw [hsplit, List.cons_append])

/-- Where the bad frames come last, one connection reads every event. -/
theorem BadLast.mem_readable {frames : List Frame} (h : BadLast frames) {f : Frame} {x : Val × Val}
    (hf : f ∈ frames) (hx : f.read = some x) : x ∈ readable frames := by
  induction frames with
  | nil => cases hf
  | cons raw frames ih =>
    cases hraw : raw.read with
    | none =>
      rcases List.mem_cons.1 hf with rfl | hf
      · rw [hraw] at hx
        cases hx
      · rw [h [] raw frames rfl hraw f hf] at hx
        cases hx
    | some y =>
      rw [readable, hraw]
      rcases List.mem_cons.1 hf with rfl | hf
      · obtain rfl := Option.some.inj (hraw.symm.trans hx)
        exact List.mem_cons_self
      · exact List.mem_cons_of_mem _ (ih h.tail hf)

/-- Where they do not, there is a first one, and an event behind it. -/
theorem exists_first_bad {frames : List Frame} (h : ¬ BadLast frames) :
    ∃ good bad rest, frames = good ++ bad :: rest ∧ (∀ f ∈ good, f.read.isSome) ∧ bad.read = none ∧
      ∃ g ∈ rest, g.read.isSome := by
  induction frames with
  | nil => exact absurd (fun before f rest hsplit => by simp at hsplit) h
  | cons raw frames ih =>
    by_cases hraw : raw.read = none
    · refine ⟨[], raw, frames, rfl, by simp, hraw, ?_⟩
      by_contra hno
      refine h fun before f rest hsplit _ g hg => ?_
      by_contra hgn
      have hmem : g ∈ frames := by
        cases before with
        | nil =>
          obtain ⟨-, rfl⟩ := List.cons.inj hsplit
          exact hg
        | cons b before =>
          obtain ⟨-, rfl⟩ := List.cons.inj hsplit
          simp [hg]
      exact hno ⟨g, hmem, Option.isSome_iff_ne_none.2 hgn⟩
    · have htail : ¬ BadLast frames := by
        intro hlast
        refine h fun before f rest hsplit hf g hg => ?_
        cases before with
        | nil =>
          obtain ⟨rfl, -⟩ := List.cons.inj hsplit
          exact absurd hf hraw
        | cons b before =>
          obtain ⟨-, hsplit⟩ := List.cons.inj hsplit
          exact hlast before f rest hsplit hf g hg
      obtain ⟨good, bad, rest, rfl, hgood, hbad, hg⟩ := ih htail
      refine ⟨raw :: good, bad, rest, rfl, fun f hf => ?_, hbad, hg⟩
      rcases List.mem_cons.1 hf with rfl | hf
      · exact Option.isSome_iff_ne_none.2 hraw
      · exact hgood f hf

/-- **The stream gets through exactly if no bad frame stands before a well-formed one.** Some number of connections
yields every well-formed event the server has for the first of them, the whole log for a client without a cursor,
exactly if none of these events lies behind a bad frame. -/
theorem delivered_iff (st : BackoffSettings) (log : FrameLog) (cursor : Option ℤ) (endings : ℕ → Bool × ℚ) :
    (∃ n, ∀ f ∈ log.sends cursor, ∀ x, f.read = some x →
      x.1 ∈ yielded (log.connections st cursor endings n).effects) ↔ BadLast (log.sends cursor) := by
  constructor
  · rintro ⟨n, hall⟩
    by_contra hno
    obtain ⟨good, bad, rest, hsends, hgood, hbad, g, hg, hgs⟩ := exists_first_bad hno
    obtain ⟨y, hy⟩ := Option.isSome_iff_exists.1 hgs
    have hmem : g ∈ log.sends cursor := by
      rw [hsends]
      simp [hg]
    exact not_yielded hgood hbad hsends hg hy endings n (hall g hmem y hy)
  · intro hlast
    refine ⟨1, fun f hf x hx => ?_⟩
    have hfirst : log.connections st cursor endings 1 = (init cursor).step st
        ⟨.opened (log.sends cursor) (endings 0).1, (endings 0).2⟩ := rfl
    rw [hfirst, (yielded_step st rfl _).1]
    exact List.mem_append_right _ (List.mem_map_of_mem (hlast.mem_readable hf hx))

/-- A frame that is not JSON, and an event. -/
def badFirst : FrameLog where
  frames := [⟨none⟩, ⟨some (.dict [("time_us", .int 10)])⟩]
  timed := by
    intro f hf x hx
    simp only [List.mem_cons, List.not_mem_nil, or_false] at hf
    rcases hf with rfl | rfl
    · cases hx
    · cases hx
      exact ⟨10, rfl⟩
  sorted := by
    refine List.pairwise_pair.2 fun t ht => ?_
    cases ht

/-- **The bad frame is sent again for ever**: no number of connections yields the event behind it. -/
theorem bad_frame_wedges : ¬ ∃ n, .dict [("time_us", .int 10)] ∈
    yielded (badFirst.connections ⟨1, 60, 1 / 5⟩ none (fun _ => (false, 0)) n).effects := by
  rintro ⟨n, hmem⟩
  have hsends : badFirst.sends none = [] ++ ⟨none⟩ :: [⟨some (.dict [("time_us", .int 10)])⟩] := rfl
  have hread : Frame.read ⟨some (.dict [("time_us", .int 10)])⟩ = some (.dict [("time_us", .int 10)], .int 10) := rfl
  exact not_yielded (by simp) rfl hsends List.mem_cons_self hread _ n hmem

end BlueskyTrends
