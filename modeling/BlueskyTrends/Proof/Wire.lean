import BlueskyTrends.Ingest.Loads
import BlueskyTrends.Ingest.Wire
import BlueskyTrends.Proof.Provenance

/-!
# The service over its URLs

A service whose connections are opened by the URLs it builds goes as one that hands its cursor to
the source, over the events of the collections it asks for: the text of a URL carries the
collections and the cursor, and nothing is lost or read differently on the way.

* `parse_buildUrl`: **the URL is read back**.
* `within_step`: a cursor at hand is one of the source, or the one stored at first.
* `wire_run`: the two services make the same runs.
-/

namespace BlueskyTrends

open Checkpointer

variable {H : Host} {st : IngestSettings} {us : UrlSettings} {J : Jetstream} {log : SourceLog} {cursor : Option ℤ}
  {event : Val} {P : ℤ → Prop} {b : Bool} {pos : ℕ}

/-! ## The URL -/

theorem utf8_inj {s t : String} (h : utf8 s = utf8 t) : s = t := by
  have hdata : s.toByteArray.data = t.toByteArray.data := Array.toList_inj.1 h
  exact String.toByteArray_inj.1 (ByteArray.ext hdata)

/-- **The URL is read back**: its parameters, in their order. -/
theorem parse_buildUrl (hq : '?' ∉ us.jetstreamUrl.toList) (hf : '#' ∉ us.jetstreamUrl.toList) (cursor : Option ℤ) :
    Query.parse (Query.query (buildUrl us cursor).toList) =
      some ((us.params cursor).map fun p => (utf8 p.1, utf8 p.2)) := by
  have htext : (buildUrl us cursor).toList = us.jetstreamUrl.toList ++
      '?' :: Query.urlencode ((us.params cursor).map fun p => (utf8 p.1, utf8 p.2)) := by
    simp [buildUrl, urlencode]
  rw [htext, Query.query_url hq hf, Query.parse_urlencode]

theorem valuesOf_encoded (name : String) (params : List (String × String)) :
    valuesOf name (params.map fun p => (utf8 p.1, utf8 p.2)) =
      ((params.filter fun p => p.1 = name).map fun p => utf8 p.2) := by
  induction params with
  | nil => rfl
  | cons p params ih =>
    unfold valuesOf at ih ⊢
    by_cases hp : p.1 = name
    · rw [List.map_cons, List.filter_cons_of_pos (by simp [hp]), List.filter_cons_of_pos (by simp [hp]), List.map_cons,
        List.map_cons, ih]
    · have hne : utf8 p.1 ≠ utf8 name := fun h => hp (utf8_inj h)
      rw [List.map_cons, List.filter_cons_of_neg (by simpa using hne), List.filter_cons_of_neg (by simpa using hp), ih]

/-- The collections asked for. -/
theorem wanted_params (cursor : Option ℤ) :
    valuesOf "wantedCollections" ((us.params cursor).map fun p => (utf8 p.1, utf8 p.2)) =
      us.wantedCollections.map utf8 := by
  have hwanted : ∀ cs : List String, ((cs.map fun c => ("wantedCollections", c)).filter fun p => p.1 = "wantedCollections") =
      cs.map fun c => ("wantedCollections", c) := by
    intro cs
    rw [List.filter_eq_self]
    intro p hp
    obtain ⟨c, -, rfl⟩ := List.mem_map.1 hp
    exact decide_eq_true rfl
  unfold UrlSettings.params
  rw [valuesOf_encoded, List.filter_append, hwanted]
  cases cursor with
  | none => simp
  | some n => simp

/-- The cursor asked for. -/
theorem cursor_params (cursor : Option ℤ) :
    valuesOf "cursor" ((us.params cursor).map fun p => (utf8 p.1, utf8 p.2)) =
      (cursor.map fun n => utf8 (toString n)).toList := by
  have hwanted : ∀ cs : List String, ((cs.map fun c => ("wantedCollections", c)).filter fun p => p.1 = "cursor") = [] := by
    intro cs
    rw [List.filter_eq_nil_iff]
    intro p hp
    obtain ⟨c, -, rfl⟩ := List.mem_map.1 hp
    simp
  unfold UrlSettings.params
  rw [valuesOf_encoded, List.filter_append, hwanted]
  cases cursor with
  | none => rfl
  | some n => rfl

/-- **The answer to the URL** is what the source has for the cursor, of the collections asked for. -/
theorem answer_buildUrl (hq : '?' ∉ us.jetstreamUrl.toList) (hf : '#' ∉ us.jetstreamUrl.toList)
    (hc : ∀ n, cursor = some n → J.parseCursor (utf8 (toString n)) = some n) :
    J.answer log (buildUrl us cursor) b pos =
      some ((log.connect cursor b pos).filter (J.serves (us.wantedCollections.map utf8))) := by
  unfold Jetstream.answer
  rw [parse_buildUrl hq hf]
  simp only [Option.bind_eq_bind, Option.bind_some, cursor_params, wanted_params]
  cases cursor with
  | none => rfl
  | some n =>
    simp only [Option.map_some, Option.toList_some, hc n rfl, Option.bind_some]
    rfl

/-- The events served, from the cursor or the live position. -/
theorem SourceLog.served_connect (log : SourceLog) (p : Val → Bool) (cursor : Option ℤ) (b : Bool) (pos : ℕ) :
    (log.connect cursor b pos).filter p =
      (log.served p).connect cursor b ((log.events.take pos).filter p).length := by
  cases cursor with
  | some k =>
    simp only [connect, served, List.filter_filter]
    exact List.filter_congr fun e _ => Bool.and_comm _ _
  | none =>
    have hsplit : log.events.filter p = (log.events.take pos).filter p ++ (log.events.drop pos).filter p := by
      rw [← List.filter_append, List.take_append_drop]
    simp only [connect, served]
    rw [hsplit, List.drop_left]

/-! ## The cursors at hand -/

/-- The cursors a process holds satisfy `P`. -/
structure Proc.Within (P : ℤ → Prop) (p : Proc) : Prop where
  todo : ∀ c, .register c ∈ p.todo → P c
  pending : ∀ c ∈ p.cp.pendingAcks, P c
  safe : ∀ v, p.cp.safeCursor = some v → P v

/-- The cursors a life holds, or is about to receive, satisfy `P`. -/
structure Life.Within (P : ℤ → Prop) (l : Life) : Prop where
  latest : ∀ v, l.latest = some v → P v
  conn : ∀ rest, l.conn = some rest → ∀ e ∈ rest, ∀ t, timeUs e = some t → P t
  proc : l.proc.Within P

structure Service.Within (P : ℤ → Prop) (s : Service) : Prop where
  stored : ∀ v, s.stored = some v → P v
  life : ∀ l, s.life = some l → l.Within P

namespace Proc

variable {p p' : Proc} {a : Act}

theorem within_init (now : ℤ) : (init now).Within P where
  todo := by simp [Proc.init]
  pending := by simp [Proc.init, Checkpointer.init]
  safe := by simp [Proc.init, Checkpointer.init]

/-- A step that neither registers nor folds. -/
theorem Within.frame (h : p.Within P) (ht : ∀ c, .register c ∈ p'.todo → P c) (hs : Saved p.cp p'.cp) :
    p'.Within P where
  todo := ht
  pending := fun c hc => h.pending c (hs.pending ▸ hc)
  safe := fun v hv => h.safe v (hs.safe ▸ hv)

/-- **A step holds no cursor** but those it held, and that of the event it takes. -/
theorem within_step (h : p.Within P) (ha : ∀ event now, a = .recv event now → ∀ t, timeUs event = some t → P t) :
    (p.step H st a).Within P := by
  have hm := move_step H st p a
  generalize p.step H st a = p' at hm ⊢
  have tail : ∀ {c : Call} {rest : List Call}, p.todo = c :: rest → ∀ x, .register x ∈ rest → P x :=
    fun ht x hx => h.todo x (by rw [ht]; exact List.mem_cons_of_mem _ hx)
  cases hm with
  | stay => exact h
  | recv hi hc =>
    refine h.frame (fun c hcall => ?_) (saved_refl _)
    exact ha _ _ rfl c (registers_own (consumeCalls_ok hc) c hcall)
  | recvFails | drain => exact h.frame (by simp [Proc.drain, drainCalls]) (saved_refl _)
  | abandon => exact h.frame (by simp) (saved_refl _)
  | register ht =>
    refine ⟨tail ht, fun x hx => ?_, fun v hv => h.safe v (by simpa using hv)⟩
    rcases mem_register.1 hx with rfl | hx
    · exact h.todo x (by rw [ht]; exact List.mem_cons_self)
    · exact h.pending x hx
  | produce ht | produceDlq ht => exact h.frame (tail ht) (saved_refl _)
  | quiet ht _ hs => exact h.frame (tail ht) hs
  | @report i d success call rest ht hs hi =>
    cases hc : d.cursor with
    | none => exact h.frame h.todo (by simp only [deliver, hc]; exact saved_refl _)
    | some c =>
      cases success with
      | false => exact h.frame h.todo (by simp only [deliver, hc, onAck_false]; exact saved_refl _)
      | true =>
        have hf := p.cp.onAck_folded c
        have hcp : ({ p with inflight := p.inflight.eraseIdx i }.deliver d true).cp = p.cp.onAck true c := by
          simp only [deliver, hc]
        refine ⟨h.todo, fun x hx => ?_, fun v hv => ?_⟩
        · rw [hcp] at hx
          exact h.pending x ((hf.mem x).1 hx).1
        · rw [hcp] at hv
          -- the mark stays, or is one of the cursors folded
          rcases hf.safe with ⟨-, hsafe⟩ | ⟨w, hw, hsafe⟩
          · exact h.safe v (hsafe ▸ hv)
          · obtain rfl : w = v := Option.some.inj (hsafe.symm.trans hv)
            exact h.pending w (hf.acked w hw.1).1

end Proc

namespace Service

variable {s : Service} {l : Life}

theorem within_init {stored : Option ℤ} (h : ∀ v, stored = some v → P v) : (init stored).Within P where
  stored := h
  life := by simp [init]

theorem Within.yield (st : IngestSettings) (h : s.Within P) (hlife : s.life = some l) {rest : List Val}
    (hrest : l.conn = some (event :: rest)) {act : Proc.Act} (hact : act = .stop ∨ ∃ now, act = .recv event now) :
    Within P { s with
      received := s.received ++ [event]
      life := some ⟨(timeUs event).or l.latest, some rest, l.proc.step H st act⟩ } := by
  have hl := h.life l hlife
  refine ⟨h.stored, fun l' hl' => ?_⟩
  obtain rfl := Option.some.inj hl'
  have htime : ∀ t, timeUs event = some t → P t := hl.conn _ hrest event List.mem_cons_self
  refine ⟨fun v hv => ?_, fun rest' hr e he => ?_, Proc.within_step hl.proc ?_⟩
  · cases ht : timeUs event with
    | none =>
      rw [ht] at hv
      exact hl.latest v hv
    | some t =>
      rw [ht] at hv
      exact Option.some.inj hv ▸ htime t ht
  · obtain rfl := Option.some.inj hr
    exact hl.conn _ hrest e (List.mem_cons_of_mem _ he)
  · rintro e now he t ht
    rcases hact with rfl | ⟨now', rfl⟩
    · cases he
    · cases he
      exact htime t ht

/-- A call that returns or raises, with or without a save. -/
theorem Within.call (h : s.Within P) (hlife : s.life = some l) {a : Proc.Act} (ha : a = .call ∨ a = .raise) (b : Bool) :
    Within P { s with
      stored := if b then (l.proc.saves st a).or s.stored else s.stored
      life := some { l with proc := l.proc.step H st a } } := by
  have hl := h.life l hlife
  refine ⟨fun v hv => ?_, fun l' hl' => ?_⟩
  · cases b with
    | false => exact h.stored v hv
    | true =>
      cases hsave : l.proc.saves st a with
      | none =>
        simp only [hsave] at hv
        exact h.stored v hv
      | some w =>
        simp only [hsave] at hv
        obtain rfl := Option.some.inj hv
        exact hl.proc.safe w (Proc.saves_eq hsave).1
  · obtain rfl := Option.some.inj hl'
    refine ⟨hl.latest, hl.conn, Proc.within_step hl.proc ?_⟩
    rintro event now rfl
    rcases ha with ha | ha <;> cases ha

theorem within_step (hlog : ∀ e ∈ log.events, ∀ t, timeUs e = some t → P t) (h : s.Within P) (a : Act) :
    (s.step H st log a).Within P := by
  have hm := move_step H st log s a
  generalize s.step H st log a = s' at hm ⊢
  cases hm with
  | stay => exact h
  | @boot now hlife =>
    refine ⟨h.stored, fun l hl => ?_⟩
    obtain rfl := Option.some.inj hl
    exact ⟨h.stored, by simp, Proc.within_init now⟩
  | crash => exact ⟨h.stored, by simp⟩
  | @connect l b pos hlife =>
    refine ⟨h.stored, fun l' hl' => ?_⟩
    obtain rfl := Option.some.inj hl'
    refine ⟨(h.life l hlife).latest, fun rest hr e he => hlog e ?_, (h.life l hlife).proc⟩
    obtain rfl := Option.some.inj hr
    exact connect_subset _ _ _ he
  | @drop l hlife =>
    refine ⟨h.stored, fun l' hl' => ?_⟩
    obtain rfl := Option.some.inj hl'
    exact ⟨(h.life l hlife).latest, by simp, (h.life l hlife).proc⟩
  | recv hlife hconn => exact h.yield st hlife hconn (Or.inr ⟨_, rfl⟩)
  | stop hlife hconn => exact h.yield st hlife hconn (Or.inl rfl)
  | call hlife => exact h.call hlife (Or.inl rfl) true
  | @raise l applied hlife => exact h.call hlife (Or.inr rfl) applied
  | @report l i success hlife =>
    have hl := h.life l hlife
    refine ⟨h.stored, fun l' hl' => ?_⟩
    obtain rfl := Option.some.inj hl'
    have hproc : (l.proc.step H st (.report i success)).Within P := Proc.within_step hl.proc (by simp)
    exact ⟨hl.latest, hl.conn, hproc⟩

end Service

/-! ## The runs -/

/-- What a 64-bit integer holds. -/
def SixtyFour (n : ℤ) : Prop := -2 ^ 63 ≤ n ∧ n < 2 ^ 63

instance (n : ℤ) : Decidable (SixtyFour n) := inferInstanceAs (Decidable (_ ∧ _))

/-- **A step over the URL** is a step over the events served. -/
theorem wire_step {s : Service} (hq : '?' ∉ us.jetstreamUrl.toList) (hf : '#' ∉ us.jetstreamUrl.toList)
    (hparse : ∀ n, SixtyFour n → J.parseCursor (utf8 (toString n)) = some n) (h : s.Within SixtyFour) (a : Service.Act) :
    s.wireStep H st us J log a = s.step H st (log.served (J.serves (us.wantedCollections.map utf8)))
      (a.served log (J.serves (us.wantedCollections.map utf8))) := by
  cases a with
  | connect b pos =>
    cases hlife : s.life with
    | none => simp only [Service.wireStep, Service.step, Service.Act.served, hlife]
    | some l =>
      have hanswer : J.answer log (buildUrl us l.latest) b pos =
          some ((log.connect l.latest b pos).filter (J.serves (us.wantedCollections.map utf8))) :=
        answer_buildUrl hq hf fun n hn => hparse n ((h.life l hlife).latest n hn)
      simp only [Service.wireStep, Service.step, Service.Act.served, hlife, hanswer, log.served_connect]
  | _ => rfl

/-- **The text of the URL loses nothing.** Whatever the lives of the service do, one whose
connections are opened by the URLs it builds is where one is that hands its cursor over as it is, on
the events of the collections it asks for; as long as the configured URL has no query of its own,
and the times of the source and the cursor stored at first are 64-bit integers, which the server
reads in decimal. -/
theorem wire_run (H : Host) (st : IngestSettings) (us : UrlSettings) (J : Jetstream) (log : SourceLog)
    (stored : Option ℤ) (as : List Service.Act)
    (hq : '?' ∉ us.jetstreamUrl.toList) (hf : '#' ∉ us.jetstreamUrl.toList)
    (hparse : ∀ n, SixtyFour n → J.parseCursor (utf8 (toString n)) = some n)
    (hlog : ∀ e ∈ log.events, ∃ n, e.item? "time_us" = some (.int n) ∧ SixtyFour n)
    (hstored : ∀ v, stored = some v → SixtyFour v) :
    Trace.run (Service.wireStep H st us J log) (.init stored) as =
      Trace.run (Service.step H st (log.served (J.serves (us.wantedCollections.map utf8)))) (.init stored)
        (as.map (Service.Act.served log (J.serves (us.wantedCollections.map utf8)))) := by
  set served := J.serves (us.wantedCollections.map utf8)
  have htimes : ∀ e ∈ (log.served served).events, ∀ t, timeUs e = some t → SixtyFour t := by
    intro e he t ht
    obtain ⟨n, hn, hrange⟩ := hlog e (List.mem_filter.1 he).1
    rw [timeUs, hn] at ht
    obtain rfl : n = t := Option.some.inj ht
    exact hrange
  have hsim : ∀ (s t : Service) (a b : Service.Act), b = a.served log served → s = t ∧ t.Within SixtyFour →
      s.wireStep H st us J log a = t.step H st (log.served served) b ∧
        (t.step H st (log.served served) b).Within SixtyFour := by
    rintro s t a b rfl ⟨rfl, h⟩
    exact ⟨wire_step hq hf hparse h a, Service.within_step htimes h _⟩
  have hacts : List.Forall₂ (fun a b => b = Service.Act.served log served a) as
      (as.map (Service.Act.served log served)) := by
    rw [List.forall₂_map_right_iff]
    exact List.forall₂_same.2 fun _ _ => rfl
  exact (Trace.run_sim hsim ⟨rfl, Service.within_init hstored⟩ hacts).1

/-- A server that reads a 64-bit integer in decimal, and serves the collections asked for. -/
def decimalServer : Jetstream where
  serves wanted event := match event.item? "commit" with
    | some commit => match commit.item? "collection" with
      | some (.str c) => decide (utf8 c ∈ wanted)
      | _ => true
    | none => true
  parseCursor text := do
    let s ← String.fromUTF8? ⟨text.toArray⟩
    let n ← (loadNumber id s.toList).bind Val.asInt?
    if SixtyFour n then some n else none

theorem parseCursor_decimalServer {n : ℤ} (hn : SixtyFour n) :
    decimalServer.parseCursor (utf8 (toString n)) = some n := by
  have hbytes : (⟨(utf8 (toString n)).toArray⟩ : ByteArray) = (toString n).toByteArray := by
    rw [utf8, Array.toArray_toList]
  have htext : String.fromUTF8? (toString n).toByteArray = some (toString n) := by
    rw [String.fromUTF8?, dif_pos (toString n).isValidUTF8]
    rfl
  have hlen : (Nat.toDigits 10 n.natAbs).length ≤ 19 := by
    rw [Nat.length_toDigits_le_iff (by omega) (by omega)]
    have hrange := hn
    unfold SixtyFour at hrange
    omega
  have hdigits : (Nat.toDigits 10 n.natAbs).length ≤ maxStrDigits := by
    unfold maxStrDigits
    omega
  simp only [decimalServer, hbytes, htext, Option.bind_eq_bind, Option.bind_some, loadNumber_int id hdigits]
  exact if_pos hn

/-- The settings of the service, for posts only. -/
def postsOnly : UrlSettings := ⟨"wss://jetstream2.us-east.bsky.network/subscribe", ["app.bsky.feed.post"]⟩

example : buildUrl postsOnly (some 15) =
    "wss://jetstream2.us-east.bsky.network/subscribe?wantedCollections=app.bsky.feed.post&cursor=15" := by decide

/-- A crash after the first save: the second life connects where the first has saved. -/
theorem wire_run_crash :
    Trace.run (Service.wireStep asciiHost everyAck postsOnly decimalServer postLog) (.init (some 5)) crashAfterSave =
      Trace.run (Service.step asciiHost everyAck
          (postLog.served (decimalServer.serves (postsOnly.wantedCollections.map utf8)))) (.init (some 5))
        (crashAfterSave.map
          (Service.Act.served postLog (decimalServer.serves (postsOnly.wantedCollections.map utf8)))) := by
  have hlog : ∀ e ∈ postLog.events, ∃ n, e.item? "time_us" = some (.int n) ∧ SixtyFour n := by
    intro e he
    rcases List.mem_cons.1 he with rfl | he
    · exact ⟨10, rfl, by decide⟩
    · obtain rfl := List.mem_singleton.1 he
      exact ⟨20, rfl, by decide⟩
  have hstored : ∀ v, (some 5 : Option ℤ) = some v → SixtyFour v := by
    rintro v hv
    obtain rfl := Option.some.inj hv
    decide
  exact wire_run asciiHost everyAck postsOnly decimalServer postLog (some 5) crashAfterSave (by decide) (by decide)
    (fun _ hn => parseCursor_decimalServer hn) hlog hstored

end BlueskyTrends
