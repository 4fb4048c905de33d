import BlueskyTrends.Proof.Resume

/-!
# What a restart repeats

After a crash the service receives again what lies above the stored cursor, also events that are
acked. After an orderly stop with everything acked it does not: the last save takes the watermark
past all of them.

* `swept_step`: what the checkpointer still holds back is held back by an event that is not acked.
* `restart_repeats_nothing`: **after an orderly stop nothing produced is received again**, but maybe
  the last event.
-/

namespace BlueskyTrends

open Checkpointer

variable {H : Host} {st : IngestSettings} {log : SourceLog} {p p' : Proc} {a : Proc.Act} {R A : Set ℤ} {k : ℤ}

/-! ## What a report leaves pending -/

namespace Checkpointer

variable {s : Checkpointer} {c x : ℤ}

/-- Not acked after the report: not acked before, and not of this report. -/
theorem mark_lookup_false : (s.mark c).pendingAcks.lookup x = some false ↔
    s.pendingAcks.lookup x = some false ∧ x ≠ c := by
  rw [mark_lookup]
  by_cases hx : x = c ∧ c ∈ s.pendingAcks
  · rw [if_pos hx]
    simp [hx.1]
  · rw [if_neg hx]
    refine ⟨fun hl => ⟨hl, ?_⟩, And.left⟩
    rintro rfl
    exact hx ⟨rfl, mem_pendingAcks.2 ⟨false, hl⟩⟩

/-- The fold takes acked entries only. -/
theorem onAck_lookup_false : (s.onAck true c).pendingAcks.lookup x = some false ↔
    s.pendingAcks.lookup x = some false ∧ x ≠ c := by
  rw [onAck, if_pos rfl, advanceWatermark_lookup, ← mark_lookup_false]
  split
  · rename_i hfold
    have hmarked : x ∈ (s.mark c).marked := Frontier.Covered.settled hfold
    have htrue : (s.mark c).pendingAcks.lookup x = some true := hmarked
    simp [htrue]
  · rfl

/-- **What stays pending is behind an entry that is not acked.** -/
theorem onAck_blocked (hx : x ∈ (s.onAck true c).pendingAcks) :
    ∃ c' ≤ x, (s.onAck true c).pendingAcks.lookup c' = some false := by
  obtain ⟨hpending, hnot⟩ := ((s.onAck_folded c).mem x).1 hx
  -- it is not folded, so there is an unacked cursor at or below it
  have hgap : ∃ c' ≤ x, (s.mark c).pendingAcks.lookup c' = some false := by
    by_contra hnone
    refine hnot ⟨mem_mark.2 hpending, fun y hy hle => ?_⟩
    obtain ⟨b, hb⟩ := mem_pendingAcks.1 (mem_pending.1 hy)
    cases b with
    | true => exact hb
    | false => exact absurd ⟨y, hle, hb⟩ hnone
  obtain ⟨c', hle, hl⟩ := hgap
  exact ⟨c', hle, onAck_lookup_false.2 (mark_lookup_false.1 hl)⟩

end Checkpointer

namespace Proc

/-- A registered event is registered with its own cursor. -/
theorem Tracks.cursor_eq (ht : p.Tracks R A k) {d : Delivery} {c : ℤ} (hd : d ∈ p.inflight) (hc : d.cursor = some c)
    {x : ℕ × ℤ} (hx : x ∈ p.registered) (hevent : x.1 = d.event) : x.2 = c := by
  obtain ⟨e, he, htime⟩ := ht.registered x hx
  obtain ⟨e', he', htime'⟩ := ht.registered _ (ht.wired.cursor d hd c hc)
  rw [hevent, he'] at he
  obtain rfl := Option.some.inj he
  exact Option.some.inj (htime.symm.trans htime')

/-! ## Letters -/

/-- A message without a cursor is not of a registered event, also the one about to be sent. -/
structure Lettered (p : Proc) : Prop where
  held : ∀ d ∈ p.inflight, d.cursor = none → ∀ x ∈ p.registered, x.1 ≠ d.event
  sending : (∃ raw error topic, .produceDlq raw error topic ∈ p.todo) → ∀ x ∈ p.registered, x.1 ≠ p.current

theorem not_produceDlq {rest : List Call} (h : ∀ c ∈ rest, c.quiet) :
    ¬ ∃ raw error topic, .produceDlq raw error topic ∈ rest := by
  rintro ⟨raw, error, topic, hmem⟩
  have hq := h _ hmem
  cases hq

theorem lettered_init (now : ℤ) : (init now).Lettered where
  held := by simp [init]
  sending := by simp [init]

/-- A step that hands nothing over. -/
theorem Lettered.frame (h : p.Lettered) (hi : p'.inflight ⊆ p.inflight) (hr : p'.registered = p.registered)
    (ht : ∀ c ∈ p'.todo, c.quiet) : p'.Lettered where
  held := by
    rw [hr]
    exact fun d hd => h.held d (hi hd)
  sending := fun hsend => absurd hsend (not_produceDlq ht)

/-- An event received is not registered. -/
theorem Lettered.recv (h : p.Lettered) (ht : p.Tracks R A k) (event : Val) (calls : List Call) (b : Bool) :
    Lettered { p with seen := p.seen ++ [event], todo := calls, draining := b } where
  held := h.held
  sending := by
    intro _ x hx
    obtain ⟨e, he, -⟩ := ht.registered x hx
    have hlt := (List.getElem?_eq_some_iff.1 he).1
    simp only [current, List.length_append, List.length_singleton]
    omega

theorem lettered_step (h : p.Lettered) (ht : p.Tracks R A k) (a : Act) : (p.step H st a).Lettered := by
  have hm := move_step H st p a
  generalize p.step H st a = p' at hm ⊢
  cases hm with
  | stay => exact h
  | recv => exact h.recv ht _ _ _
  | recvFails => exact h.recv ht _ _ _
  | drain => exact h.frame (List.Subset.refl _) rfl quiet_drain
  | abandon => exact h.frame (List.Subset.refl _) rfl (by simp)
  | @register c rest hp =>
    obtain ⟨-, -, hunsent⟩ := ht.wired.unsent ⟨_, by rw [hp]; exact List.mem_cons_self, rfl⟩
    have hrest := ht.wired.rest
    rw [hp] at hrest
    refine ⟨fun d hd hnone x hx => ?_, ?_⟩
    · rcases List.mem_append.1 hx with hx | hx
      · exact h.held d hd hnone x hx
      · rw [List.mem_singleton.1 hx]
        exact (hunsent d hd).symm
    · rintro ⟨raw, error, topic, hmem⟩
      -- after the registration only the produce and quiet calls are left
      cases hrest with
      | quiet hr => cases hr _ List.mem_cons_self
      | register hr =>
        rcases List.mem_cons.1 hmem with hmem | hmem
        · cases hmem
        · cases hr _ hmem
  | @produce m c rest hp =>
    have hquiet : ∀ c ∈ rest, c.quiet := rest_tail (hp ▸ ht.wired.rest) (by simp)
    refine ⟨fun d hd hnone => ?_, fun hsend => absurd hsend (not_produceDlq hquiet)⟩
    rcases List.mem_append.1 hd with hd | hd
    · exact h.held d hd hnone
    · rw [List.mem_singleton.1 hd] at hnone
      cases hnone
  | @produceDlq raw error topic rest hp =>
    have hquiet : ∀ c ∈ rest, c.quiet := rest_tail (hp ▸ ht.wired.rest) (by simp)
    refine ⟨fun d hd hnone => ?_, fun hsend => absurd hsend (not_produceDlq hquiet)⟩
    rcases List.mem_append.1 hd with hd | hd
    · exact h.held d hd hnone
    · rw [List.mem_singleton.1 hd]
      exact h.sending ⟨raw, error, topic, by rw [hp]; exact List.mem_cons_self⟩
  | @quiet call rest cp hp hq _ =>
    have hquiet : ∀ c ∈ rest, c.quiet := rest_tail (hp ▸ ht.wired.rest) (by rintro x rfl; cases hq)
    exact h.frame (List.Subset.refl _) rfl hquiet
  | report _ _ hi => exact ⟨fun d hd => h.held d (List.mem_of_mem_eraseIdx hd), h.sending⟩

/-! ## What is held back -/

/-- What the checkpointer holds back is held back by a cursor whose event is not acked; all other
registered cursors are at or below the watermark. -/
structure Swept (p : Proc) : Prop where
  blocked : ∀ c ∈ p.cp.pendingAcks, ∃ c' ≤ c, p.cp.pendingAcks.lookup c' = some false
  unacked : ∀ c, p.cp.pendingAcks.lookup c = some false → ∃ x ∈ p.registered, x.2 = c ∧ x.1 ∉ p.acked
  reached : ∀ x ∈ p.registered, x.2 ∈ p.cp.pendingAcks ∨ ∃ v, p.cp.safeCursor = some v ∧ x.2 ≤ v
  floor : ∀ c ∈ p.cp.pendingAcks, ∀ v, p.cp.safeCursor = some v → v ≤ c
  saved : ∀ u, p.cp.savedCursor = some u → ∃ v, p.cp.safeCursor = some v ∧ u ≤ v

theorem swept_init (now : ℤ) : (init now).Swept where
  blocked := by simp [init, Checkpointer.init]
  unacked := by simp [init, Checkpointer.init]
  reached := by simp [init]
  floor := by simp [init, Checkpointer.init]
  saved := by simp [init, Checkpointer.init]

/-- With all acked the watermark is past everything registered. -/
theorem Swept.all (h : p.Swept) (hacked : ∀ x ∈ p.registered, x.1 ∈ p.acked) :
    ∀ x ∈ p.registered, ∃ v, p.cp.safeCursor = some v ∧ x.2 ≤ v := by
  intro x hx
  rcases h.reached x hx with hpending | hsafe
  · obtain ⟨c, -, hfalse⟩ := h.blocked _ hpending
    obtain ⟨y, hy, -, hnot⟩ := h.unacked c hfalse
    exact absurd (hacked y hy) hnot
  · exact hsafe

/-- A step that keeps the registrations and what is held back. -/
theorem Swept.frame (h : p.Swept) (hr : p'.registered = p.registered) (ha : p'.acked = p.acked)
    (hs : Saved p.cp p'.cp) : p'.Swept where
  blocked := by
    rw [hs.pending]
    exact h.blocked
  unacked := by
    rw [hs.pending, hr, ha]
    exact h.unacked
  reached := by
    rw [hs.pending, hs.safe, hr]
    exact h.reached
  floor := by
    rw [hs.pending, hs.safe]
    exact h.floor
  saved := by
    intro u hu
    rw [hs.safe]
    rcases hs.saved with hold | hnew
    · exact h.saved u (hold ▸ hu)
    · exact ⟨u, hnew ▸ hu, le_rfl⟩

/-- A registration of the greatest cursor so far. -/
theorem Swept.register (h : p.Swept) (ht : p.Tracks R A k) {c : ℤ} {rest : List Call}
    (hp : p.todo = .register c :: rest) : Swept { p with
      todo := rest, cp := p.cp.register c, registered := p.registered ++ [(p.current, c)] } := by
  obtain ⟨hck, -⟩ := ht.todo c (by rw [hp]; exact List.mem_cons_self)
  obtain ⟨-, hnot, -⟩ := ht.wired.unsent ⟨_, by rw [hp]; exact List.mem_cons_self, rfl⟩
  have hlookup := register_lookup p.cp c
  have hsafe := register_safe p.cp c
  refine ⟨fun x hx => ?_, fun x hx => ?_, fun x hx => ?_, fun x hx v hv => ?_, fun u hu => ?_⟩
  · by_cases hc : c ∈ p.cp.pendingAcks
    · -- `setdefault` keeps the entry
      have hsame : p.cp.register c = p.cp := if_pos hc
      rw [hsame] at hx ⊢
      exact h.blocked x hx
    · rcases mem_register.1 hx with rfl | hx
      · exact ⟨x, le_rfl, by rw [hlookup, if_pos ⟨rfl, hc⟩]⟩
      · obtain ⟨c', hle, hfalse⟩ := h.blocked x hx
        have hne : c' ≠ c := by
          rintro rfl
          exact hc (mem_pendingAcks.2 ⟨false, hfalse⟩)
        exact ⟨c', hle, by rw [hlookup, if_neg fun hh => hne hh.1]; exact hfalse⟩
  · rw [hlookup] at hx
    by_cases hxc : x = c ∧ c ∉ p.cp.pendingAcks
    · exact ⟨(p.current, c), List.mem_append_right _ (List.mem_singleton_self _), hxc.1.symm, hnot⟩
    · rw [if_neg hxc] at hx
      obtain ⟨y, hy, heq, hnack⟩ := h.unacked x hx
      exact ⟨y, List.mem_append_left _ hy, heq, hnack⟩
  · rw [hsafe]
    rcases List.mem_append.1 hx with hx | hx
    · exact (h.reached x hx).imp (fun hmem => mem_register.2 (Or.inr hmem)) id
    · rw [List.mem_singleton.1 hx]
      exact Or.inl (mem_register.2 (Or.inl rfl))
  · rw [hsafe] at hv
    rcases mem_register.1 hx with rfl | hx
    · rw [hck]
      exact (ht.safe v hv).1
    · exact h.floor x hx v hv
  · rw [register_saved] at hu
    rw [hsafe]
    exact h.saved u hu

/-- The watermark after a report is not below the one before. -/
theorem Swept.safe_onAck (h : p.Swept) (c : ℤ) {v : ℤ} (hv : p.cp.safeCursor = some v) :
    ∃ w, (p.cp.onAck true c).safeCursor = some w ∧ v ≤ w := by
  have hf := p.cp.onAck_folded c
  rcases hf.safe with ⟨-, hs⟩ | ⟨w, hw, hs⟩
  · exact ⟨v, hs.trans hv, le_rfl⟩
  · exact ⟨w, hs, h.floor w (hf.acked w hw.1).1 v hv⟩

/-- The report of an event that is not registered, or of a failure. -/
theorem Swept.report_other (h : p.Swept) {d : Delivery} {success : Bool} {inflight : List Delivery}
    (hcp : (deliver { p with inflight := inflight } d success).cp = p.cp)
    (hd : success = true → ∀ x ∈ p.registered, x.1 ≠ d.event) :
    Swept (deliver { p with inflight := inflight } d success) where
  blocked := by
    rw [hcp]
    exact h.blocked
  unacked := by
    intro c hc
    rw [hcp] at hc
    obtain ⟨x, hx, heq, hnot⟩ := h.unacked c hc
    refine ⟨x, hx, heq, ?_⟩
    simp only [deliver]
    split
    · rw [List.mem_append, List.mem_singleton]
      rintro (hmem | hevent)
      · exact hnot hmem
      · exact hd ‹_› x hx hevent
    · exact hnot
  reached := by
    rw [hcp]
    exact h.reached
  floor := by
    rw [hcp]
    exact h.floor
  saved := by
    rw [hcp]
    exact h.saved

/-- **The report of a registered event**: what it leaves pending is behind a cursor that is not
acked. -/
theorem Swept.report_acked (h : p.Swept) (ht : p.Tracks R A k) {i : ℕ} {d : Delivery} {c : ℤ}
    (hi : p.inflight[i]? = some d) (hc : d.cursor = some c) :
    Swept (deliver { p with inflight := p.inflight.eraseIdx i } d true) := by
  have hcp : (deliver { p with inflight := p.inflight.eraseIdx i } d true).cp = p.cp.onAck true c := by
    simp only [deliver, hc]
  have hf := p.cp.onAck_folded c
  refine ⟨fun x hx => ?_, fun x hx => ?_, fun x hx => ?_, fun x hx v hv => ?_, fun u hu => ?_⟩
  · rw [hcp] at hx ⊢
    exact onAck_blocked hx
  · rw [hcp] at hx
    obtain ⟨hl, hne⟩ := onAck_lookup_false.1 hx
    obtain ⟨y, hy, heq, hnot⟩ := h.unacked x hl
    refine ⟨y, hy, heq, ?_⟩
    have hacked : (deliver { p with inflight := p.inflight.eraseIdx i } d true).acked = p.acked ++ [d.event] := rfl
    rw [hacked, List.mem_append, List.mem_singleton]
    rintro (hmem | hevent)
    · exact hnot hmem
    · exact hne (heq.symm.trans (ht.cursor_eq (List.mem_of_getElem? hi) hc hy hevent))
  · rw [hcp]
    rcases h.reached x hx with hpending | ⟨v, hv, hle⟩
    · by_cases hfold : x.2 ∈ (p.cp.mark c).foldable
      · rcases hf.safe with ⟨hempty, -⟩ | ⟨w, hw, hs⟩
        · rw [hempty] at hfold
          cases hfold
        · exact Or.inr ⟨w, hs, hw.2 hfold⟩
      · exact Or.inl ((hf.mem _).2 ⟨hpending, hfold⟩)
    · obtain ⟨w, hw, hvw⟩ := h.safe_onAck c hv
      exact Or.inr ⟨w, hw, hle.trans hvw⟩
  · rw [hcp] at hx hv
    obtain ⟨hpending, hnot⟩ := (hf.mem x).1 hx
    rcases hf.safe with ⟨-, hs⟩ | ⟨w, hw, hs⟩
    · exact h.floor x hpending v (hs ▸ hv)
    · obtain rfl := Option.some.inj (hs.symm.trans hv)
      by_contra hlt
      exact hnot (hf.down x hpending w hw.1 (by omega))
  · rw [hcp, onAck_saved] at hu
    obtain ⟨v, hv, huv⟩ := h.saved u hu
    obtain ⟨w, hw, hvw⟩ := h.safe_onAck c hv
    rw [hcp]
    exact ⟨w, hw, huv.trans hvw⟩

/-- **What a step keeps.** -/
theorem swept_step (h : p.Swept) (hl : p.Lettered) (ht : p.Tracks R A k) (a : Act) : (p.step H st a).Swept := by
  have hm := move_step H st p a
  generalize p.step H st a = p' at hm ⊢
  cases hm with
  | stay => exact h
  | recv | recvFails | drain | abandon | produce | produceDlq => exact h.frame rfl rfl (saved_refl _)
  | register hp => exact h.register ht hp
  | quiet _ _ hs => exact h.frame rfl rfl hs
  | @report i d success _ _ _ _ hi =>
    cases hc : d.cursor with
    | none =>
      have hcp : (deliver { p with inflight := p.inflight.eraseIdx i } d success).cp = p.cp := by
        simp only [deliver, hc]
      exact h.report_other hcp fun _ => hl.held d (List.mem_of_getElem? hi) hc
    | some c =>
      cases success with
      | true => exact h.report_acked ht hi hc
      | false =>
        have hcp : (deliver { p with inflight := p.inflight.eraseIdx i } d false).cp = p.cp := by
          simp only [deliver, hc, onAck_false]
        exact h.report_other hcp (by simp)

/-- A call that returns leaves the watermark, and what it saves is the saved cursor. -/
theorem call_saved (H : Host) (st : IngestSettings) (p : Proc) :
    (p.step H st .call).cp.safeCursor = p.cp.safeCursor ∧
      (p.step H st .call).cp.savedCursor = (p.saves st .call).or p.cp.savedCursor := by
  cases hp : p.todo with
  | nil => simp [step, saves, hp]
  | cons c rest =>
    simp only [step, saves, hp, perform]
    cases c with
    | register c => simp
    | maybeSave now => exact ⟨maybeSave_safe st p.cp now, maybeSave_saved st p.cp now⟩
    | finalSave => exact ⟨finalSave_safe p.cp, finalSave_saved p.cp⟩
    | produce | produceDlq | recordEvent | recordDlq | poll | flush => exact ⟨rfl, rfl⟩

/-- Only a call that returns moves the saved cursor. -/
theorem saved_step (ha : a ≠ .call) : (p.step H st a).cp.savedCursor = p.cp.savedCursor := by
  have hm := move_step H st p a
  generalize p.step H st a = p' at hm ⊢
  cases hm with
  | stay | recv | recvFails | drain | abandon => rfl
  | register | produce | produceDlq | quiet => exact absurd rfl ha
  | @report i d success =>
    simp only [deliver]
    cases d.cursor with
    | none => rfl
    | some c => exact onAck_saved _ _ _

/-- Where a step leaves the watermark at the saved cursor, it saves it or found it there. -/
theorem Swept.saves_or (h : p.Swept) {u : ℤ} (hsaved : (p.step H st a).cp.savedCursor = some u)
    (hsafe : (p.step H st a).cp.safeCursor = some u) :
    p.saves st a = some u ∨ p.cp.savedCursor = some u ∧ p.cp.safeCursor = some u := by
  by_cases ha : a = .call
  · subst ha
    obtain ⟨hsame, heq⟩ := call_saved H st p
    rw [hsame] at hsafe
    cases hv : p.saves st .call with
    | none =>
      rw [hv, Option.none_or] at heq
      exact Or.inr ⟨heq ▸ hsaved, hsafe⟩
    | some v =>
      obtain rfl : v = u := Option.some.inj ((saves_eq hv).1.symm.trans hsafe)
      exact Or.inl rfl
  · rw [saved_step ha] at hsaved
    refine Or.inr ⟨hsaved, ?_⟩
    have hm := move_step H st p a
    generalize p.step H st a = p' at hm hsafe
    cases hm with
    | stay | recv | recvFails | drain | abandon => exact hsafe
    | register | produce | produceDlq | quiet => exact absurd rfl ha
    | @report i d success _ _ _ _ hi =>
      simp only [deliver] at hsafe
      cases hc : d.cursor with
      | none =>
        rw [hc] at hsafe
        exact hsafe
      | some c =>
        rw [hc] at hsafe
        cases success with
        | false => exact hsafe
        | true =>
          -- the watermark has not moved: it was between the two
          obtain ⟨v, hv, huv⟩ := h.saved u hsaved
          obtain ⟨w, hw, hvw⟩ := h.safe_onAck c hv
          obtain rfl := Option.some.inj (hsafe.symm.trans hw)
          obtain rfl := le_antisymm huv hvw
          exact hv

end Proc

/-! ## A life -/

/-- What a connection delivers are events of the source, none below the cursor. -/
theorem SourceLog.connect_sublist (log : SourceLog) (cursor : Option ℤ) (b : Bool) (pos : ℕ) :
    (log.connect cursor b pos).Sublist log.events ∧
      ∀ k, cursor = some k → ∀ e ∈ log.connect cursor b pos, ∀ t, timeUs e = some t → k ≤ t := by
  cases cursor with
  | none => exact ⟨List.drop_sublist _ _, by simp⟩
  | some k =>
    refine ⟨List.filter_sublist, ?_⟩
    rintro k' hk e he t ht
    obtain rfl := Option.some.inj hk
    have hpass := (List.mem_filter.1 he).2
    simp only [ht, Option.any_some, Bool.or_eq_true, decide_eq_true_eq, Bool.and_eq_true] at hpass
    omega

/-- The process accounts for the client's latest cursor (before the first event: for any), and the connection
goes on at or above it. -/
structure Life.InOrder (log : SourceLog) (l : Life) : Prop where
  tracks : ∀ k, (∀ k', l.latest = some k' → k' = k) → l.proc.Tracks ∅ Set.univ k
  conn : ∀ rest, l.conn = some rest → rest.Sublist log.events ∧
    ∀ k, l.latest = some k → ∀ e ∈ rest, ∀ t, timeUs e = some t → k ≤ t

namespace Life.InOrder

variable {l : Life} {event : Val} {rest : List Val}

theorem exists_tracks (h : l.InOrder log) : ∃ k, l.proc.Tracks ∅ Set.univ k :=
  ⟨l.latest.getD 0, h.tracks _ fun k' hk => by rw [hk, Option.getD_some]⟩

theorem boot (log : SourceLog) (latest : Option ℤ) (now : ℤ) : Life.InOrder log ⟨latest, none, .init now⟩ where
  tracks := fun _ _ => Proc.Tracks.init (by simp [Cleared]) now
  conn := by simp

/-- The process takes the next event of the connection. -/
theorem yield (h : l.InOrder log) (hconn : l.conn = some (event :: rest)) (hi : l.proc.idle) {act : Proc.Act}
    (hact : act = .stop ∨ ∃ now, act = .recv event now) :
    Life.InOrder log ⟨(timeUs event).or l.latest, some rest, l.proc.step H st act⟩ := by
  obtain ⟨hsub, habove⟩ := h.conn _ hconn
  obtain ⟨t, ht⟩ := Option.isSome_iff_exists.1 (log.timed event (hsub.subset List.mem_cons_self))
  have hlatest : (timeUs event).or l.latest = some t := by rw [ht]; rfl
  -- before the first event the process accounts for `t` as for any cursor
  obtain ⟨k, hkt, htracks⟩ : ∃ k ≤ t, l.proc.Tracks ∅ Set.univ k := by
    cases hl : l.latest with
    | none => exact ⟨t, le_rfl, h.tracks t (by simp [hl])⟩
    | some k =>
      refine ⟨k, habove k hl event List.mem_cons_self t ht, h.tracks k ?_⟩
      rintro k' hk
      exact Option.some.inj (hk.symm.trans hl)
  refine ⟨fun k' hk' => ?_, ?_⟩
  · obtain rfl : t = k' := hk' t hlatest
    rcases hact with rfl | ⟨now, rfl⟩
    · rw [Proc.step, if_pos hi]
      exact htracks.drain hi hkt (by simp)
    · exact htracks.recv_step hi hkt (by simp) ht (by simp) st now
  · rintro rest' hr
    obtain rfl := Option.some.inj hr
    refine ⟨(List.sublist_cons_self _ _).trans hsub, fun k' hk' e he t' ht' => ?_⟩
    obtain rfl := Option.some.inj (hlatest.symm.trans hk')
    have hsorted := log.sorted.sublist hsub
    exact ((List.pairwise_cons.1 hsorted).1 e he t ht t' ht').le

theorem call (h : l.InOrder log) {act : Proc.Act} (hact : act = .call ∨ act = .raise) :
    Life.InOrder log { l with proc := l.proc.step H st act } where
  tracks := fun k hk => (h.tracks k hk).call_step hact
  conn := h.conn

theorem report (h : l.InOrder log) (i : ℕ) (success : Bool) :
    Life.InOrder log { l with proc := l.proc.step H st (.report i success) } where
  tracks := by
    intro k hk
    have ht := h.tracks k hk
    have hm := Proc.move_step H st l.proc (.report i success)
    simp only
    generalize l.proc.step H st (.report i success) = p' at hm ⊢
    cases hm with
    | stay => exact ht
    | drain _ hh => rcases hh with ⟨hh, -⟩ | ⟨hh, -⟩ <;> cases hh
    | report _ _ hi => exact ht.report hi (Set.Subset.refl _) fun _ _ _ t _ => Set.mem_univ t
  conn := h.conn

end Life.InOrder

/-! ## The service -/

namespace Service

variable {s : Service} {l : Life}

theorem inOrder_step (H : Host) (st : IngestSettings) (h : ∀ l, s.life = some l → l.InOrder log) (a : Act) :
    ∀ l, (s.step H st log a).life = some l → l.InOrder log := by
  have hm := move_step H st log s a
  generalize s.step H st log a = s' at hm ⊢
  intro l' hl'
  cases hm with
  | stay => exact h l' hl'
  | @boot now _ =>
    rw [← Option.some.inj hl']
    exact .boot log s.stored now
  | crash => cases hl'
  | @connect l b pos hl =>
    rw [← Option.some.inj hl']
    refine ⟨(h l hl).tracks, ?_⟩
    rintro rest hr
    rw [← Option.some.inj hr]
    exact log.connect_sublist l.latest b pos
  | drop hl =>
    rw [← Option.some.inj hl']
    exact ⟨(h _ hl).tracks, by simp⟩
  | recv hl hconn hi =>
    rw [← Option.some.inj hl']
    exact (h _ hl).yield hconn hi (Or.inr ⟨_, rfl⟩)
  | stop hl hconn hi =>
    rw [← Option.some.inj hl']
    exact (h _ hl).yield hconn hi (Or.inl rfl)
  | call hl =>
    rw [← Option.some.inj hl']
    exact (h _ hl).call (Or.inl rfl)
  | raise hl =>
    rw [← Option.some.inj hl']
    exact (h _ hl).call (Or.inr rfl)
  | @report l i success hl =>
    rw [← Option.some.inj hl']
    exact (h l hl).report i success

/-- What every life keeps, and what its saves leave in the store. -/
structure Sweeping (log : SourceLog) (s : Service) : Prop where
  inOrder : ∀ l, s.life = some l → l.InOrder log
  lettered : ∀ l, s.life = some l → l.proc.Lettered
  swept : ∀ l, s.life = some l → l.proc.Swept
  stored : ∀ l, s.life = some l → ∀ u, l.proc.cp.savedCursor = some u → l.proc.cp.safeCursor = some u →
    s.stored = some u

theorem sweeping_init (log : SourceLog) (stored : Option ℤ) : (init stored).Sweeping log where
  inOrder := by simp [init]
  lettered := by simp [init]
  swept := by simp [init]
  stored := by simp [init]

/-- The process goes on, and the store takes what it saves. -/
theorem Sweeping.proc (H : Host) (st : IngestSettings) (h : s.Sweeping log) (hlife : s.life = some l) (a : Proc.Act)
    {s' : Service} (hin : ∀ l, s'.life = some l → l.InOrder log) {l' : Life} (hlife' : s'.life = some l')
    (hproc : l'.proc = l.proc.step H st a) (hstored : s'.stored = (l.proc.saves st a).or s.stored ∨
      s'.stored = s.stored ∧ (l.proc.step H st a).cp = l.proc.cp) : s'.Sweeping log := by
  obtain ⟨k, ht⟩ := (h.inOrder l hlife).exists_tracks
  have hl := h.lettered l hlife
  have hs := h.swept l hlife
  refine ⟨hin, fun l'' hl'' => ?_, fun l'' hl'' => ?_, fun l'' hl'' u hsaved hsafe => ?_⟩
  · obtain rfl := Option.some.inj (hlife'.symm.trans hl'')
    rw [hproc]
    exact Proc.lettered_step hl ht a
  · obtain rfl := Option.some.inj (hlife'.symm.trans hl'')
    rw [hproc]
    exact Proc.swept_step hs hl ht a
  · obtain rfl := Option.some.inj (hlife'.symm.trans hl'')
    rw [hproc] at hsaved hsafe
    rcases hstored with hstored | ⟨hstored, hcp⟩
    · rcases hs.saves_or hsaved hsafe with hv | ⟨hold, hold'⟩
      · rw [hstored, hv]
        rfl
      · have hnone : l.proc.saves st a = none := by
          cases hv : l.proc.saves st a with
          | none => rfl
          | some v =>
            obtain ⟨hsafe', hne⟩ := Proc.saves_eq hv
            rw [hold'] at hsafe'
            exact absurd (hold.trans hsafe') hne
        rw [hstored, hnone]
        exact h.stored l hlife u hold hold'
    · rw [hcp] at hsaved hsafe
      rw [hstored]
      exact h.stored l hlife u hsaved hsafe

theorem cp_raise (p : Proc) : (p.step H st .raise).cp = p.cp := by
  have hm := Proc.move_step H st p .raise
  generalize p.step H st .raise = p' at hm ⊢
  cases hm with
  | stay | drain | abandon => rfl

/-- A step that leaves the process and the store as they are. -/
theorem Sweeping.frame (h : s.Sweeping log) {s' : Service} (hin : ∀ l, s'.life = some l → l.InOrder log)
    (hstored : s'.stored = s.stored)
    (hlife : ∀ l', s'.life = some l' → ∃ l, s.life = some l ∧ l'.proc = l.proc) : s'.Sweeping log where
  inOrder := hin
  lettered := by
    intro l' hl'
    obtain ⟨l, hl, hproc⟩ := hlife l' hl'
    rw [hproc]
    exact h.lettered l hl
  swept := by
    intro l' hl'
    obtain ⟨l, hl, hproc⟩ := hlife l' hl'
    rw [hproc]
    exact h.swept l hl
  stored := by
    intro l' hl' u
    obtain ⟨l, hl, hproc⟩ := hlife l' hl'
    rw [hproc, hstored]
    exact h.stored l hl u

/-- **What a step of the service keeps.** -/
theorem sweeping_step (h : s.Sweeping log) (a : Act) : (s.step H st log a).Sweeping log := by
  have hin := inOrder_step H st h.inOrder a
  have hm := move_step H st log s a
  generalize s.step H st log a = s' at hm hin ⊢
  cases hm with
  | stay => exact h
  | @boot now _ =>
    refine ⟨hin, fun l hl => ?_, fun l hl => ?_, fun l hl u hu => ?_⟩
    · rw [← Option.some.inj hl]
      exact Proc.lettered_init now
    · rw [← Option.some.inj hl]
      exact Proc.swept_init now
    · rw [← Option.some.inj hl] at hu
      cases hu
  | crash =>
    refine h.frame hin rfl fun l' hl' => ?_
    cases hl'
  | connect hl | drop hl =>
    refine h.frame hin rfl fun l' hl' => ⟨_, hl, ?_⟩
    rw [← Option.some.inj hl']
  | @recv l now event rest hl => exact h.proc H st hl (.recv event now) hin rfl rfl (Or.inl rfl)
  | stop hl => exact h.proc H st hl .stop hin rfl rfl (Or.inl rfl)
  | call hl => exact h.proc H st hl .call hin rfl rfl (Or.inl rfl)
  | @raise l applied hl =>
    cases applied with
    | true => exact h.proc H st hl .raise hin rfl rfl (Or.inl rfl)
    | false =>
      have hcp : (l.proc.step H st .raise).cp = l.proc.cp := cp_raise l.proc
      exact h.proc H st hl .raise hin rfl rfl (Or.inr ⟨rfl, hcp⟩)
  | @report l i success hl => exact h.proc H st hl (.report i success) hin rfl rfl (Or.inl rfl)

/-- **The last save**: with all acked it takes the stored cursor past everything registered. -/
theorem Sweeping.finalSave (h : s.Sweeping log) (hlife : s.life = some l) {rest : List Call}
    (hdone : l.proc.todo = .finalSave :: rest) (hacked : ∀ x ∈ l.proc.registered, x.1 ∈ l.proc.acked) :
    ∀ x ∈ l.proc.registered, ∃ v, (s.step H st log .call).stored = some v ∧ x.2 ≤ v := by
  intro x hx
  obtain ⟨v, hsafe, hle⟩ := (h.swept l hlife).all hacked x hx
  refine ⟨v, ?_, hle⟩
  have hsaves : l.proc.saves st .call = if l.proc.cp.safeCursor ≠ l.proc.cp.savedCursor then
      l.proc.cp.safeCursor else none := by
    simp only [Proc.saves, hdone, finalSaveValue]
  simp only [step, hlife, hsaves]
  by_cases hsaved : l.proc.cp.safeCursor = l.proc.cp.savedCursor
  · rw [if_neg (not_not.2 hsaved)]
    exact h.stored l hlife v (hsaved.symm.trans hsafe) hsafe
  · rw [if_pos hsaved, hsafe]
    rfl

end Service

/-- **After an orderly stop nothing produced is received again.** Whatever was stored at first, if anything,
and whatever the lives of the service before did: where a life makes its final save with every registered event
acked, the connection of the next life delivers none of these events, but the one at the stored cursor where the
source repeats it. -/
theorem restart_repeats_nothing (H : Host) (st : IngestSettings) (log : SourceLog) (stored : Option ℤ)
    (as : List Service.Act) {l : Life}
    (hlife : (Trace.run (Service.step H st log) (.init stored) as).life = some l) {rest : List Call}
    (hdone : l.proc.todo = .finalSave :: rest) (hacked : ∀ x ∈ l.proc.registered, x.1 ∈ l.proc.acked)
    (now : ℤ) (boundary : Bool) (position : ℕ) :
    ∃ l' es, (Trace.run (Service.step H st log) (.init stored)
        (as ++ [.call, .crash, .boot now, .connect boundary position])).life = some l' ∧ l'.conn = some es ∧
      ∀ x ∈ l.proc.registered, ∀ e ∈ l.proc.seen[x.1]?, e ∈ es → boundary = true ∧ l'.latest = some x.2 := by
  have h : (Trace.run (Service.step H st log) (.init stored) as).Sweeping log :=
    Trace.run_inv (I := Service.Sweeping log) (fun _ a h => Service.sweeping_step h a)
      (Service.sweeping_init log stored) as
  obtain ⟨k, ht⟩ := (h.inOrder l hlife).exists_tracks
  set s' := (Trace.run (Service.step H st log) (.init stored) as).step H st log .call with hs'
  have hfinal : ∀ x ∈ l.proc.registered, ∃ v, s'.stored = some v ∧ x.2 ≤ v := h.finalSave hlife hdone hacked
  refine ⟨⟨s'.stored, some (log.connect s'.stored boundary position), .init now⟩,
    log.connect s'.stored boundary position, ?_, rfl, ?_⟩
  · rw [Trace.run_append]
    simp only [Trace.run_cons, Trace.run_nil, ← hs']
    rfl
  · intro x hx e he hes
    obtain ⟨v, hv, hle⟩ := hfinal x hx
    obtain ⟨e', he', htime⟩ := ht.registered x hx
    obtain rfl := Option.some.inj (he.symm.trans he')
    rw [hv, SourceLog.connect, List.mem_filter, htime] at hes
    simp only [Option.any_some, Bool.or_eq_true, decide_eq_true_eq, Bool.and_eq_true] at hes
    rcases hes.2 with hlt | ⟨hb, heq⟩
    · omega
    · exact ⟨hb, by rw [hv, heq]⟩

/-- The first of two posts is produced; the second is received when the stop event is set, and the
report of the first comes while the producer is flushed. -/
def stoppedInOrder : List Service.Act :=
  [.boot 0, .connect false 0, .recv 0, .call, .call, .call, .call, .call, .stop, .report 0 true, .call]

/-- The service on these posts, with nothing stored. -/
def newService (as : List Service.Act) : Service :=
  Trace.run (Service.step asciiHost everyAck postLog) (.init none) as

/-- The first life of the stream: the post that was produced does not come again. -/
theorem restart_repeats_nothing_stopped :
    ∃ l' es, (newService (stoppedInOrder ++ [.call, .crash, .boot 1, .connect false 0])).life = some l' ∧
      l'.conn = some es ∧ postEvent 10 (.str "one") ∉ es := by
  obtain ⟨l, hlife, hdone, hregistered, hacked, hseen⟩ : ∃ l, (newService stoppedInOrder).life = some l ∧
      l.proc.todo = [.finalSave] ∧ l.proc.registered = [(0, 10)] ∧ l.proc.acked = [0] ∧
      l.proc.seen = [postEvent 10 (.str "one")] := ⟨_, rfl, rfl, rfl, rfl, rfl⟩
  have hall : ∀ x ∈ l.proc.registered, x.1 ∈ l.proc.acked := by
    rw [hregistered, hacked]
    decide
  obtain ⟨l', es, hlife', hconn, hnone⟩ := restart_repeats_nothing asciiHost everyAck postLog none stoppedInOrder
    hlife hdone hall 1 false 0
  refine ⟨l', es, hlife', hconn, fun hes => ?_⟩
  rw [hregistered, hseen] at hnone
  obtain ⟨hboundary, -⟩ := hnone (0, 10) List.mem_cons_self _ rfl hes
  cases hboundary

end BlueskyTrends
