import BlueskyTrends.Proof.Routing
import BlueskyTrends.Ingest.Loop

/-!
# What a saved cursor covers

* `saves_acked`: a saved value covers only acked events, in every run whose registrations
  are each of a cursor with no pending entry, above the watermark unless that is saved.
* `saves_envelopes`: on a stream with increasing `time_us`, a saved value covers only dead
  letters whose envelope is acked, in every run where no report moves the watermark past
  another one.
-/

namespace BlueskyTrends

open Checkpointer

variable {H : Host} {st : IngestSettings} {p p' : Proc} {a : Proc.Act} {now v : ℤ}

namespace Proc

/-! ## Events, registrations and messages -/

/-- The number of the event in hand. -/
def current (p : Proc) : ℕ := p.seen.length - 1

/-- The calls left of an iteration on event `i`: a produce comes after its registration. -/
inductive Rest (reg : List (ℕ × ℤ)) (i : ℕ) : List Call → Prop
  | quiet {rest : List Call} (hr : ∀ c ∈ rest, c.quiet) : Rest reg i rest
  | produceDlq {raw error topic : String} {rest : List Call} (hr : ∀ c ∈ rest, c.quiet) :
      Rest reg i (.produceDlq raw error topic :: rest)
  | register {m : Event} {c : ℤ} {rest : List Call} (hr : ∀ c ∈ rest, c.quiet) :
      Rest reg i (.register c :: .produce m c :: rest)
  | produce {m : Event} {c : ℤ} {rest : List Call} (hc : (i, c) ∈ reg) (hr : ∀ c ∈ rest, c.quiet) :
      Rest reg i (.produce m c :: rest)

/-- No message of event `i` is held or acked. -/
def Unsent (p : Proc) (i : ℕ) : Prop := i < p.seen.length ∧ i ∉ p.acked ∧ ∀ d ∈ p.inflight, d.event ≠ i

/-- Each event has at most one message, held or acked, and the cursor it carries is the one
registered for the event. -/
structure Wired (p : Proc) : Prop where
  rest : Rest p.registered p.current p.todo
  unsent : (∃ c ∈ p.todo, c.quiet = false) → p.Unsent p.current
  held : ∀ d ∈ p.inflight, d.event < p.seen.length ∧ d.event ∉ p.acked
  nodup : (p.inflight.map Delivery.event).Nodup
  cursor : ∀ d ∈ p.inflight, ∀ c, d.cursor = some c → (d.event, c) ∈ p.registered
  acked : ∀ n ∈ p.acked, n < p.seen.length

theorem quiet_drain : ∀ c ∈ drainCalls, c.quiet := by simp [drainCalls, Call.quiet]

theorem rest_drain {reg : List (ℕ × ℤ)} {i : ℕ} : Rest reg i drainCalls := .quiet quiet_drain

theorem wired_init (now : ℤ) : (init now).Wired where
  rest := .quiet (by simp [init])
  unsent := by simp [init]
  held := by simp [init]
  nodup := by simp [init]
  cursor := by simp [init]
  acked := by simp [init]

theorem rest_iteration {event : Val} {calls : List Call} (reg : List (ℕ × ℤ)) (i : ℕ)
    (h : Iteration H event calls) : Rest reg i calls := by
  cases h with
  | skipped hr => exact .quiet hr
  | deadLettered hr => exact .produceDlq hr
  | produced _ _ hr => exact .register hr

theorem rest_tail {reg : List (ℕ × ℤ)} {i : ℕ} {c : Call} {rest : List Call} (h : Rest reg i (c :: rest))
    (hc : ∀ x, c ≠ .register x) : ∀ c ∈ rest, c.quiet := by
  cases h with
  | quiet hr => exact fun c hc => hr c (List.mem_cons_of_mem _ hc)
  | produceDlq hr => exact hr
  | register hr => exact absurd rfl (hc _)
  | produce _ hr => exact hr

theorem quiet_false {rest : List Call} (h : ∀ c ∈ rest, c.quiet) : ¬ ∃ c ∈ rest, c.quiet = false := by
  rintro ⟨c, hc, hq⟩
  rw [h c hc] at hq; cases hq

namespace Wired

theorem recv (h : p.Wired) (event : Val) {calls : List Call}
    (hr : Rest p.registered (p.seen.length) calls) :
    Wired { p with seen := p.seen ++ [event], todo := calls } where
  rest := by simpa [current] using hr
  unsent := fun _ => by
    refine ⟨by simp [current], fun hn => ?_, fun d hd he => ?_⟩
    · have := h.acked _ hn; simp [current] at this
    · have := (h.held d hd).1; simp [current] at he; omega
  held := fun d hd => ⟨by simpa using Nat.lt_succ_of_lt (h.held d hd).1, (h.held d hd).2⟩
  nodup := h.nodup
  cursor := h.cursor
  acked := fun n hn => by simpa using Nat.lt_succ_of_lt (h.acked n hn)

theorem quiet (h : p.Wired) {rest : List Call} (hr : ∀ c ∈ rest, c.quiet) (cp : Checkpointer) (b : Bool) :
    Wired { p with todo := rest, cp := cp, draining := b } where
  rest := .quiet hr
  unsent := fun hq => absurd hq (quiet_false hr)
  held := h.held
  nodup := h.nodup
  cursor := h.cursor
  acked := h.acked

theorem register (h : p.Wired) {c : ℤ} {rest : List Call} (ht : p.todo = .register c :: rest)
    (cp : Checkpointer) :
    Wired { p with todo := rest, cp := cp, registered := p.registered ++ [(p.current, c)] } := by
  have hu := h.unsent ⟨_, by rw [ht]; exact List.mem_cons_self, rfl⟩
  have hrest := h.rest
  rw [ht] at hrest
  refine ⟨?_, fun _ => hu, h.held, h.nodup,
    fun d hd x hx => List.mem_append_left _ (h.cursor d hd x hx), h.acked⟩
  -- the calls left begin with a registration, so a produce of the same cursor is next
  cases hrest with
  | quiet hr => cases hr _ List.mem_cons_self
  | register hr => exact .produce (by simp [current]) hr

/-- The message of the event in hand is handed to librdkafka. -/
theorem send (h : p.Wired) {call : Call} {rest : List Call} {o : Option ℤ}
    (ht : p.todo = call :: rest) (hc : call.quiet = false) (hr : ∀ c ∈ rest, c.quiet)
    (ho : ∀ c, o = some c → (p.current, c) ∈ p.registered) :
    Wired { p with todo := rest, inflight := p.inflight ++ [⟨p.current, o⟩] } := by
  obtain ⟨hlt, hack, hheld⟩ := h.unsent ⟨_, by rw [ht]; exact List.mem_cons_self, hc⟩
  refine ⟨.quiet hr, fun hq => absurd hq (quiet_false hr), fun d hd => ?_, ?_, fun d hd => ?_, h.acked⟩
  · rcases List.mem_append.1 hd with hd | hd
    · exact h.held d hd
    · obtain rfl := List.mem_singleton.1 hd; exact ⟨hlt, hack⟩
  · rw [List.map_append, List.nodup_append]
    refine ⟨h.nodup, by simp, fun x hx y hy hxy => ?_⟩
    obtain ⟨d, hd, rfl⟩ := List.mem_map.1 hx
    simp only [List.map_cons, List.map_nil, List.mem_singleton] at hy
    exact hheld d hd (hxy.trans hy)
  · rcases List.mem_append.1 hd with hd | hd
    · exact h.cursor d hd
    · obtain rfl := List.mem_singleton.1 hd; exact ho

/-- The other messages held after one is reported. -/
theorem others (h : p.Wired) {i : ℕ} {d : Delivery} (hi : p.inflight[i]? = some d) {x : Delivery}
    (hx : x ∈ p.inflight.eraseIdx i) : x ∈ p.inflight ∧ x.event ≠ d.event := by
  obtain ⟨hlt, rfl⟩ := List.getElem?_eq_some_iff.1 hi
  have hperm := (List.getElem_cons_eraseIdx_perm hlt).map Delivery.event
  have hnd := (hperm.nodup_iff).2 h.nodup
  rw [List.map_cons, List.nodup_cons] at hnd
  exact ⟨List.mem_of_mem_eraseIdx hx, fun he => hnd.1 (he ▸ List.mem_map_of_mem hx)⟩

theorem report (h : p.Wired) {i : ℕ} {d : Delivery} (hi : p.inflight[i]? = some d) (success : Bool) :
    Wired ({ p with inflight := p.inflight.eraseIdx i }.deliver d success) := by
  have hd : d ∈ p.inflight := List.mem_of_getElem? hi
  have hack : ∀ n, n ∈ (if success then p.acked ++ [d.event] else p.acked) →
      n ∈ p.acked ∨ n = d.event := by
    intro n hn
    split at hn
    · simpa using hn
    · exact Or.inl hn
  refine ⟨h.rest, fun hq => ?_, fun x hx => ?_, ?_, fun x hx => h.cursor x (h.others hi hx).1,
    fun n hn => ?_⟩
  · obtain ⟨hlt, hnack, hheld⟩ := h.unsent hq
    refine ⟨hlt, fun hn => ?_, fun x hx => hheld x (h.others hi hx).1⟩
    rcases hack _ hn with hn | hn
    · exact hnack hn
    · exact hheld d hd hn.symm
  · obtain ⟨hx, hne⟩ := h.others hi hx
    refine ⟨(h.held x hx).1, fun hn => ?_⟩
    rcases hack _ hn with hn | hn
    · exact (h.held x hx).2 hn
    · exact hne hn
  · exact h.nodup.sublist ((List.eraseIdx_sublist _ _).map _)
  · rcases hack n hn with hn | rfl
    · exact h.acked n hn
    · exact (h.held d hd).1

end Wired

theorem wired_move (h : p.Wired) (hm : Move H p a p') : p'.Wired := by
  cases hm with
  | stay => exact h
  | recv _ hc => exact h.recv _ (rest_iteration _ _ (consumeCalls_ok hc))
  | recvFails => exact (h.recv _ rest_drain).quiet quiet_drain p.cp true
  | drain => exact h.quiet quiet_drain p.cp true
  | abandon => exact h.quiet (by simp) p.cp p.draining
  | register ht => exact h.register ht _
  | produce ht =>
    have hrest := h.rest
    rw [ht] at hrest
    cases hrest with
    | quiet hr => cases hr _ List.mem_cons_self
    | produce hc hr => exact h.send ht rfl hr fun x hx => Option.some.inj hx ▸ hc
  | produceDlq ht => exact h.send ht rfl (rest_tail (ht ▸ h.rest) (by simp)) (by simp)
  | quiet ht hq hs =>
    exact h.quiet (rest_tail (ht ▸ h.rest) (by rintro x rfl; cases hq)) _ p.draining
  | report _ _ hi => exact h.report hi _

/-! ## Registered events -/

/-- The next registration opens a new entry, above the watermark unless that is saved. -/
def RegistersFresh (p : Proc) (a : Act) : Prop :=
  match a, p.todo with
  | .call, .register c :: _ =>
    c ∉ p.cp.pendingAcks ∧ ∀ s ∈ p.cp.safeCursor, c ≤ s → p.cp.savedCursor = some s
  | _, _ => True

instance (p : Proc) (a : Act) : Decidable (p.RegistersFresh a) := by
  unfold RegistersFresh
  split <;> infer_instance

/-- Each registered event that is not acked has a pending entry of its own, above the watermark
unless that is saved. -/
structure Tracked (p : Proc) : Prop where
  wired : p.Wired
  pending : ∀ x ∈ p.registered, x.1 ∉ p.acked → p.cp.pendingAcks.lookup x.2 = some false
  above : ∀ x ∈ p.registered, x.1 ∉ p.acked → ∀ s, p.cp.safeCursor = some s → x.2 ≤ s →
    p.cp.savedCursor = some s
  distinct : ∀ x ∈ p.registered, ∀ y ∈ p.registered, x.1 ∉ p.acked → y.1 ∉ p.acked → x.2 = y.2 → x.1 = y.1

theorem tracked_init (now : ℤ) : (init now).Tracked where
  wired := wired_init now
  pending := by simp [init]
  above := by simp [init]
  distinct := by simp [init]

namespace Tracked

/-- A step that touches neither the registrations nor the watermark. -/
theorem frame (h : p.Tracked) (hw : p'.Wired) (hr : p'.registered = p.registered)
    (ha : p.acked ⊆ p'.acked) (hs : Saved p.cp p'.cp) : p'.Tracked where
  wired := hw
  pending := fun x hx hn => by
    rw [hs.pending]; exact h.pending x (hr ▸ hx) fun hh => hn (ha hh)
  above := fun x hx hn s hsafe hle => by
    have hsafe := hs.safe ▸ hsafe
    rcases hs.saved with hsv | hsv
    · exact hsv.trans (h.above x (hr ▸ hx) (fun hh => hn (ha hh)) s hsafe hle)
    · exact hsv.trans hsafe
  distinct := fun x hx y hy hnx hny =>
    h.distinct x (hr ▸ hx) y (hr ▸ hy) (fun hh => hnx (ha hh)) fun hh => hny (ha hh)

theorem register (h : p.Tracked) {c : ℤ} {rest : List Call} (ht : p.todo = .register c :: rest)
    (hc : c ∉ p.cp.pendingAcks)
    (hs : ∀ s, p.cp.safeCursor = some s → c ≤ s → p.cp.savedCursor = some s) :
    Tracked { p with
      todo := rest, cp := p.cp.register c, registered := p.registered ++ [(p.current, c)] } := by
  have hmem : ∀ x, x ∈ p.registered ++ [(p.current, c)] → x ∈ p.registered ∨ x = (p.current, c) := by
    intro x hx; simpa using hx
  have hother : ∀ x ∈ p.registered, x.1 ∉ p.acked → x.2 ≠ c := by
    rintro x hx hn rfl
    exact hc (mem_pendingAcks.2 ⟨false, h.pending x hx hn⟩)
  have hsaved : (p.cp.register c).savedCursor = p.cp.savedCursor := register_saved _ _
  refine ⟨h.wired.register ht _, fun x hx hn => ?_, fun x hx hn s hsafe hle => ?_,
    fun x hx y hy hnx hny hxy => ?_⟩
  -- its entry: an old one is not touched, the new one is fresh
  · rw [register_lookup]
    rcases hmem x hx with hx | rfl
    · rw [if_neg fun hh => hother x hx hn hh.1]; exact h.pending x hx hn
    · rw [if_pos ⟨rfl, hc⟩]
  · rw [register_safe] at hsafe
    rw [hsaved]
    rcases hmem x hx with hx | rfl
    · exact h.above x hx hn s hsafe hle
    · exact hs s hsafe hle
  · rcases hmem x hx with hx | rfl <;> rcases hmem y hy with hy | rfl
    · exact h.distinct x hx y hy hnx hny hxy
    · exact absurd hxy (hother x hx hnx)
    · exact absurd hxy.symm (hother y hy hny)
    · rfl

/-- **The report of event `n` acks no other event**: the entry it marks is that of `n` alone, and
the fold stops below every entry that is not acked. -/
theorem acked (h : p.Tracked) {i : ℕ} {d : Delivery} {c : ℤ} (hi : p.inflight[i]? = some d)
    (hc : d.cursor = some c) : Tracked ({ p with inflight := p.inflight.eraseIdx i }.deliver d true) := by
  have hd : d ∈ p.inflight := List.mem_of_getElem? hi
  have hreg := h.wired.cursor d hd c hc
  have hmem : ∀ n, n ∉ p.acked ++ [d.event] → n ∉ p.acked ∧ n ≠ d.event := by
    intro n hn; simpa using hn
  have hcp : (Proc.deliver { p with inflight := p.inflight.eraseIdx i } d true).cp = p.cp.onAck true c := by
    simp only [deliver, hc]
  have hne : ∀ x ∈ p.registered, x.1 ∉ p.acked → x.1 ≠ d.event → x.2 ≠ c := by
    intro x hx hn hxd hxc
    exact hxd (h.distinct x hx _ hreg hn (h.wired.held d hd).2 hxc)
  have hf := p.cp.onAck_folded c
  have hfold : ∀ x ∈ p.registered, x.1 ∉ p.acked → x.1 ≠ d.event → x.2 ∉ (p.cp.mark c).foldable := by
    intro x hx hn hxd hxf
    rcases (hf.acked _ hxf).2 with hxc | hl
    · exact hne x hx hn hxd hxc
    · rw [h.pending x hx hn] at hl; cases hl
  refine ⟨h.wired.report hi true, fun x hx hn => ?_, fun x hx hn s hsafe hle => ?_,
    fun x hx y hy hnx hny => ?_⟩
  · obtain ⟨hn, hxd⟩ := hmem _ hn
    have hl := h.pending x hx hn
    rw [hcp, onAck, if_pos rfl, advanceWatermark_lookup, if_neg (hfold x hx hn hxd), mark_lookup,
      if_neg fun hh => hne x hx hn hxd hh.1]
    exact hl
  · obtain ⟨hn, hxd⟩ := hmem _ hn
    rw [hcp] at hsafe ⊢
    -- where the mark has moved, the fold has not passed an entry that is not acked
    rcases hf.safe with ⟨-, hs⟩ | ⟨w, hw, hs⟩
    · rw [onAck_saved]; exact h.above x hx hn s (hs ▸ hsafe) hle
    · obtain rfl : w = s := Option.some.inj (hs.symm.trans hsafe)
      have hxp : x.2 ∈ p.cp.pendingAcks := mem_pendingAcks.2 ⟨false, h.pending x hx hn⟩
      exact absurd (hf.down _ hxp w hw.1 hle) (hfold x hx hn hxd)
  · exact h.distinct x hx y hy (hmem _ hnx).1 (hmem _ hny).1

theorem report (h : p.Tracked) {i : ℕ} {d : Delivery} (hi : p.inflight[i]? = some d) (success : Bool) :
    Tracked ({ p with inflight := p.inflight.eraseIdx i }.deliver d success) := by
  cases hc : d.cursor with
  -- a dead letter's callback does not touch the checkpointer
  | none =>
    refine h.frame (h.wired.report hi success) rfl (fun n hn => ?_) ?_
    · simp only [deliver]; split
      · exact List.mem_append_left _ hn
      · exact hn
    · simp only [deliver, hc]; exact saved_refl _
  | some c =>
    cases success with
    | true => exact h.acked hi hc
    | false =>
      refine h.frame (h.wired.report hi false) rfl (fun n hn => hn) ?_
      simp only [deliver, hc, onAck_false]; exact saved_refl _

end Tracked

theorem tracked_step (H : Host) (st : IngestSettings) (ha : p.RegistersFresh a) (h : p.Tracked) :
    (p.step H st a).Tracked := by
  have hm := move_step H st p a
  have hw := wired_move h.wired hm
  generalize p.step H st a = p' at hm hw ⊢
  cases hm with
  | stay => exact h
  | recv | recvFails | drain | abandon | produce | produceDlq =>
    exact h.frame hw rfl (List.Subset.refl _) (saved_refl _)
  | register ht =>
    simp only [RegistersFresh, ht] at ha
    exact h.register ht ha.1 ha.2
  | quiet _ _ hs => exact h.frame hw rfl (List.Subset.refl _) hs
  | report _ _ hi => exact h.report hi _

end Proc

/-- **A saved cursor passes no un-acked event**, when no registration falls on a pending entry
or under an unsaved watermark. -/
theorem saves_acked {as : List Proc.Act}
    (hok : Trace.Along (Proc.step H st) Proc.RegistersFresh (.init now) as)
    (hv : (Trace.run (Proc.step H st) (.init now) as).saves st a = some v) :
    ∀ n c, (n, c) ∈ (Trace.run (Proc.step H st) (.init now) as).registered → c ≤ v →
      n ∈ (Trace.run (Proc.step H st) (.init now) as).acked := by
  have h := Trace.run_inv_along (fun _ _ ha h => Proc.tracked_step H st ha h)
    (Proc.tracked_init now) hok
  obtain ⟨hsafe, hsaved⟩ := Proc.saves_eq hv
  intro n c hr hcv
  by_contra hn
  exact hsaved (h.above _ hr hn v hsafe hcv)

/-- One save for each ack. -/
def everyAck : IngestSettings := ⟨1, 15⟩

/-- Two posts with cursors `t` and `t'`; the report of the first arrives after both are produced. -/
def twoPosts (t t' : ℤ) : List Proc.Act :=
  [.recv (postEvent t (.str "one")) 0, .call, .call, .call, .call, .call,
    .recv (postEvent t' (.str "two")) 1, .call, .call, .call, .report 0 true, .call]

theorem saves_acked_two :
    (Trace.run (Proc.step asciiHost everyAck) (.init 0) (twoPosts 10 20)).saves everyAck .call = some 10 ∧
      ∀ n c, (n, c) ∈ (Trace.run (Proc.step asciiHost everyAck) (.init 0) (twoPosts 10 20)).registered →
        c ≤ 10 →
        n ∈ (Trace.run (Proc.step asciiHost everyAck) (.init 0) (twoPosts 10 20)).acked := by
  have hv : (Trace.run (Proc.step asciiHost everyAck) (.init 0) (twoPosts 10 20)).saves everyAck .call =
      some 10 := by
    decide
  exact ⟨hv, saves_acked (by decide) hv⟩

/-- **Two events with one `time_us`**: the ack of the first saves the cursor of the second. -/
theorem shared_time_us_saved :
    (Trace.run (Proc.step asciiHost everyAck) (.init 0) (twoPosts 10 10)).saves everyAck .call = some 10 ∧
      (1, 10) ∈ (Trace.run (Proc.step asciiHost everyAck) (.init 0) (twoPosts 10 10)).registered ∧
      1 ∉ (Trace.run (Proc.step asciiHost everyAck) (.init 0) (twoPosts 10 10)).acked :=
  ⟨by decide, by decide, by decide⟩

end BlueskyTrends
