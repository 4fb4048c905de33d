import BlueskyTrends.Proof.Restart

/-!
# The first life of a stream

Before the first save there is no cursor to resume from, and the next life starts at the live position.
From its first event on, the first life goes as one that resumed from the cursor just before that event, with
the difference that this cursor is not in the store.

* `formed_step`: the watermark forms with the ack of the least registered cursor.
* `begun_step`: what the first life keeps, as what a resumed life keeps.
* `fresh_resumes_iff`: nothing is lost exactly when some save comes through with the least registered cursor
  acked, or every accepted event is reported as delivered.
-/

namespace BlueskyTrends

open Checkpointer

variable {H : Host} {st : IngestSettings} {log : SourceLog} {p p' : Proc} {R A : Set ℤ} {k t : ℤ} {event : Val}

/-- The cadence of `maybe_save`: by count or by age. -/
def Checkpointer.Cadence (st : IngestSettings) (s : Checkpointer) (now : ℤ) : Prop :=
  st.cursorCheckpointAcks ≤ s.acksSinceSave ∨ st.cursorCheckpointSeconds ≤ now - s.lastSaveMonotonic

theorem Checkpointer.due_iff {s : Checkpointer} (hsaved : s.savedCursor = none) (now : ℤ) :
    s.due st now = true ↔ s.safeCursor ≠ none ∧ s.Cadence st now := by
  unfold due Cadence
  by_cases hsafe : s.safeCursor = none
  · simp [hsafe]
  · have hnew : ¬ (s.safeCursor = none ∨ s.safeCursor = s.savedCursor) := by
      rw [hsaved]
      simp [hsafe]
    rw [if_neg hnew]
    by_cases hacks : st.cursorCheckpointAcks ≤ s.acksSinceSave
    · simp [hacks, hsafe]
    · simp [hacks, hsafe]

namespace Proc

variable {a : Act}

/-- The least registered cursor is that of an acked event. -/
def LeastAcked (p : Proc) : Prop := ∃ x ∈ p.registered, x.1 ∈ p.acked ∧ ∀ y ∈ p.registered, x.2 ≤ y.2

/-- The next call saves the watermark, if there is one: `maybe_save` on its cadence, or `final_save`. -/
def AtSave (st : IngestSettings) (p : Proc) : Prop :=
  match p.todo with
  | .maybeSave now :: _ => p.cp.Cadence st now
  | .finalSave :: _ => True
  | _ => False

/-- The report of the `i`-th message held, if it comes now, is one of `event`. -/
def Carries (event : Val) (p : Proc) (i : ℕ) : Prop :=
  ∃ c d, p.todo.head? = some c ∧ services c ∧ p.inflight[i]? = some d ∧ p.seen[d.event]? = some event

/-! ## When the watermark forms -/

/-- The marks are acks of registered events. Until the watermark forms every such ack is marked; once it has
formed the least registered cursor is acked. -/
structure Formed (p : Proc) : Prop where
  marked : ∀ c, p.cp.pendingAcks.lookup c = some true → ∃ x ∈ p.registered, x.2 = c ∧ x.1 ∈ p.acked
  acked : p.cp.safeCursor = none → ∀ x ∈ p.registered, x.1 ∈ p.acked →
    p.cp.pendingAcks.lookup x.2 = some true
  least : p.cp.safeCursor ≠ none → p.LeastAcked

theorem formed_init (now : ℤ) : (init now).Formed where
  marked := by simp [init, Checkpointer.init]
  acked := by simp [init]
  least := by simp [init, Checkpointer.init]

/-- Before the watermark forms every registered cursor is pending. -/
theorem Swept.pending_of_none (hs : p.Swept) (hnone : p.cp.safeCursor = none) {x : ℕ × ℤ} (hx : x ∈ p.registered) :
    x.2 ∈ p.cp.pendingAcks := by
  rcases hs.reached x hx with hpending | ⟨v, hv, -⟩
  · exact hpending
  · rw [hnone] at hv
    cases hv

/-- **The watermark forms with the ack of the least registered cursor.** -/
theorem Formed.safe_iff (h : p.Formed) (hs : p.Swept) : p.cp.safeCursor ≠ none ↔ p.LeastAcked := by
  refine ⟨h.least, ?_⟩
  rintro ⟨x, hx, hacked, hleast⟩ hnone
  -- it would be pending, held back by a cursor at or below it: by itself, and it is marked
  obtain ⟨c, hle, hfalse⟩ : ∃ c ≤ x.2, p.cp.pendingAcks.lookup c = some false :=
    hs.blocked x.2 (hs.pending_of_none hnone hx)
  obtain ⟨y, hy, rfl, -⟩ := hs.unacked c hfalse
  have hsame : y.2 = x.2 := le_antisymm hle (hleast y hy)
  have htrue := h.acked hnone x hx hacked
  rw [← hsame, hfalse] at htrue
  cases htrue

theorem Formed.frame (h : p.Formed) (hr : p'.registered = p.registered) (ha : p'.acked = p.acked)
    (hs : Saved p.cp p'.cp) : p'.Formed where
  marked := by
    rw [hs.pending, hr, ha]
    exact h.marked
  acked := by
    rw [hs.pending, hs.safe, hr, ha]
    exact h.acked
  least := by
    rw [hs.safe]
    unfold LeastAcked
    rw [hr, ha]
    exact h.least

/-- A registration of the greatest cursor so far. -/
theorem Formed.register (h : p.Formed) (hs : p.Swept) (ht : p.Tracks R A k) {c : ℤ} {rest : List Call}
    (hp : p.todo = .register c :: rest) : Formed { p with
      todo := rest, cp := p.cp.register c, registered := p.registered ++ [(p.current, c)] } := by
  obtain ⟨hck, -⟩ := ht.todo c (by rw [hp]; exact List.mem_cons_self)
  obtain ⟨-, hnot, -⟩ := ht.wired.unsent ⟨_, by rw [hp]; exact List.mem_cons_self, rfl⟩
  have hlookup := register_lookup p.cp c
  refine ⟨fun d hd => ?_, fun hnone x hx hacked => ?_, fun hsome => ?_⟩
  · rw [hlookup] at hd
    split at hd
    · cases hd
    · obtain ⟨x, hx, heq, hacked⟩ := h.marked d hd
      exact ⟨x, List.mem_append_left _ hx, heq, hacked⟩
  · rw [register_safe] at hnone
    rcases List.mem_append.1 hx with hx | hx
    · have htrue := h.acked hnone x hx hacked
      -- `setdefault` keeps the entry
      rw [hlookup, if_neg]
      · exact htrue
      · rintro ⟨rfl, hfresh⟩
        exact hfresh (mem_pendingAcks.2 ⟨true, htrue⟩)
    · rw [List.mem_singleton.1 hx] at hacked
      exact absurd hacked hnot
  · rw [register_safe] at hsome
    obtain ⟨x, hx, hacked, hleast⟩ := h.least hsome
    refine ⟨x, List.mem_append_left _ hx, hacked, fun y hy => ?_⟩
    rcases List.mem_append.1 hy with hy | hy
    · exact hleast y hy
    · rw [List.mem_singleton.1 hy, hck]
      rcases hs.reached x hx with hpending | ⟨v, hv, hle⟩
      · exact ht.pending _ hpending
      · exact hle.trans (ht.safe v hv).1

/-- The report of an event that is not registered, or of a failure. -/
theorem Formed.report_other (h : p.Formed) {d : Delivery} {success : Bool} {inflight : List Delivery}
    (hcp : (deliver { p with inflight := inflight } d success).cp = p.cp)
    (hd : success = true → ∀ x ∈ p.registered, x.1 ≠ d.event) :
    Formed (deliver { p with inflight := inflight } d success) := by
  have hmono : ∀ n, n ∈ p.acked → n ∈ (deliver { p with inflight := inflight } d success).acked := by
    intro n hn
    simp only [deliver]
    split
    · exact List.mem_append_left _ hn
    · exact hn
  refine ⟨fun c hc => ?_, fun hnone x hx hacked => ?_, fun hsome => ?_⟩
  · rw [hcp] at hc
    obtain ⟨x, hx, heq, hacked⟩ := h.marked c hc
    exact ⟨x, hx, heq, hmono _ hacked⟩
  · rw [hcp] at hnone ⊢
    refine h.acked hnone x hx ?_
    simp only [deliver] at hacked
    split at hacked
    · rcases List.mem_append.1 hacked with hold | hnew
      · exact hold
      · exact absurd (List.mem_singleton.1 hnew) (hd ‹_› x hx)
    · exact hacked
  · rw [hcp] at hsome
    obtain ⟨x, hx, hacked, hleast⟩ := h.least hsome
    exact ⟨x, hx, hmono _ hacked, hleast⟩

/-- There is a least registered cursor. -/
theorem exists_least {x : ℕ × ℤ} (hx : x ∈ p.registered) :
    ∃ y ∈ p.registered, ∀ z ∈ p.registered, y.2 ≤ z.2 := by
  obtain ⟨y, hy, hleast⟩ := Finset.exists_min_image p.registered.toFinset Prod.snd ⟨x, List.mem_toFinset.2 hx⟩
  exact ⟨y, List.mem_toFinset.1 hy, fun z hz => hleast z (List.mem_toFinset.2 hz)⟩

/-- **The report of a registered event**: where the first fold takes a cursor, it takes the least. -/
theorem Formed.report_acked (h : p.Formed) (hs : p.Swept) (ht : p.Tracks R A k) {i : ℕ} {d : Delivery} {c : ℤ}
    (hi : p.inflight[i]? = some d) (hc : d.cursor = some c) :
    Formed (deliver { p with inflight := p.inflight.eraseIdx i } d true) := by
  have hcp : (deliver { p with inflight := p.inflight.eraseIdx i } d true).cp = p.cp.onAck true c := by
    simp only [deliver, hc]
  have hacks : (deliver { p with inflight := p.inflight.eraseIdx i } d true).acked = p.acked ++ [d.event] := rfl
  have hreg : (deliver { p with inflight := p.inflight.eraseIdx i } d true).registered = p.registered := rfl
  have hown : (d.event, c) ∈ p.registered := ht.wired.cursor d (List.mem_of_getElem? hi) c hc
  have hf := p.cp.onAck_folded c
  have hmono : ∀ n, n ∈ p.acked → n ∈ p.acked ++ [d.event] := fun n hn => List.mem_append_left _ hn
  -- an entry that was marked, or is marked by this report
  have hmark : ∀ y, y = c ∨ p.cp.pendingAcks.lookup y = some true →
      ∃ x ∈ p.registered, x.2 = y ∧ x.1 ∈ p.acked ++ [d.event] := by
    rintro y (rfl | hl)
    · exact ⟨_, hown, rfl, List.mem_append_right _ (List.mem_singleton_self _)⟩
    · obtain ⟨x, hx, heq, hacked⟩ := h.marked y hl
      exact ⟨x, hx, heq, hmono _ hacked⟩
  refine ⟨fun y hy => ?_, fun hnone x hx hacked => ?_, fun hsome => ?_⟩
  · rw [hcp] at hy
    rw [hacks, hreg]
    exact hmark y (hf.lookup y hy)
  · rw [hcp] at hnone ⊢
    rw [hacks] at hacked
    -- nothing is folded
    rcases hf.safe with ⟨hempty, hsafe⟩ | ⟨w, -, hw⟩
    · have hold : p.cp.safeCursor = none := hsafe.symm.trans hnone
      rw [onAck, if_pos rfl, advanceWatermark_lookup, if_neg (by rw [hempty]; simp), mark_lookup]
      rcases List.mem_append.1 hacked with hacked | hacked
      · split
        · rfl
        · exact h.acked hold x hx hacked
      · have hxc : x.2 = c := ht.cursor_eq (List.mem_of_getElem? hi) hc hx (List.mem_singleton.1 hacked)
        have hpending := hs.pending_of_none hold hx
        rw [if_pos ⟨hxc, hxc ▸ hpending⟩]
    · rw [hw] at hnone
      cases hnone
  · by_cases hold : p.cp.safeCursor = none
    · rcases hf.safe with ⟨-, hsafe⟩ | ⟨w, hw, -⟩
      · rw [hcp, hsafe] at hsome
        exact absurd hold hsome
      · obtain ⟨x, hx, hleast⟩ := exists_least hown
        have hpending : x.2 ∈ p.cp.pendingAcks := hs.pending_of_none hold hx
        obtain ⟨y, hy, rfl, -⟩ := hmark w (hf.acked w hw.1).2
        have hfold := hf.down x.2 hpending y.2 hw.1 (hleast y hy)
        obtain ⟨z, hz, heq, hacked⟩ := hmark x.2 (hf.acked x.2 hfold).2
        exact ⟨z, hz, hacked, heq ▸ hleast⟩
    · obtain ⟨x, hx, hacked, hleast⟩ := h.least hold
      exact ⟨x, hx, hmono _ hacked, hleast⟩

/-- **What a step keeps.** -/
theorem formed_step (h : p.Formed) (hs : p.Swept) (hl : p.Lettered) (ht : p.Tracks R A k) (a : Act) :
    (p.step H st a).Formed := by
  have hm := move_step H st p a
  generalize p.step H st a = p' at hm ⊢
  cases hm with
  | stay => exact h
  | recv | recvFails | drain | abandon | produce | produceDlq => exact h.frame rfl rfl (saved_refl _)
  | register hp => exact h.register hs ht hp
  | quiet _ _ hsaved => exact h.frame rfl rfl hsaved
  | @report i d success _ _ _ _ hi =>
    cases hc : d.cursor with
    | none =>
      have hcp : (deliver { p with inflight := p.inflight.eraseIdx i } d success).cp = p.cp := by
        simp only [deliver, hc]
      exact h.report_other hcp fun _ => hl.held d (List.mem_of_getElem? hi) hc
    | some c =>
      cases success with
      | true => exact h.report_acked hs ht hi hc
      | false =>
        have hcp : (deliver { p with inflight := p.inflight.eraseIdx i } d false).cp = p.cp := by
          simp only [deliver, hc, onAck_false]
        exact h.report_other hcp (by simp)

/-- **When the first save is made.** -/
theorem saves_iff (h : p.Formed) (hs : p.Swept) (ha : a = .call ∨ a = .raise) (hsaved : p.cp.savedCursor = none) :
    p.saves st a ≠ none ↔ p.AtSave st ∧ p.LeastAcked := by
  have hleast := h.safe_iff hs
  have hcall : p.saves st a = match p.todo with
      | .maybeSave now :: _ => p.cp.maybeSaveValue st now
      | .finalSave :: _ => p.cp.finalSaveValue
      | _ => none := by
    rcases ha with rfl | rfl
    · rfl
    · rfl
  rw [hcall, AtSave]
  split
  · rename_i now _ _
    rw [maybeSaveValue, ← hleast]
    by_cases hdue : p.cp.due st now = true
    · rw [if_pos hdue]
      have hboth := (due_iff hsaved now).1 hdue
      exact ⟨fun _ => ⟨hboth.2, hboth.1⟩, fun _ => hboth.1⟩
    · rw [if_neg hdue]
      refine ⟨fun hne => absurd rfl hne, ?_⟩
      rintro ⟨hcadence, hsafe⟩
      exact absurd ((due_iff hsaved now).2 ⟨hsafe, hcadence⟩) hdue
  · rw [finalSaveValue, hsaved, ← hleast]
    split
    · exact ⟨fun hne => ⟨trivial, hne⟩, And.right⟩
    · rename_i hsafe
      exact ⟨fun hne => absurd rfl hne, fun hh => absurd hh.2 hsafe⟩
  · simp

/-- What a report adds to the acked events. -/
theorem mem_ackedEvents_report (i : ℕ) (success : Bool) :
    event ∈ (p.step H st (.report i success)).ackedEvents ↔
      event ∈ p.ackedEvents ∨ success = true ∧ p.Carries event i := by
  cases hp : p.todo with
  | nil =>
    rw [step_report_nil hp]
    simp [Carries, hp]
  | cons c rest =>
    rw [step_report_cons hp]
    cases hi : p.inflight[i]? with
    | none => simp [Carries, hi]
    | some d =>
      by_cases hserve : services c = true
      · cases success with
        | false => simp [Carries, ackedEvents, deliver, hp, hi, hserve]
        | true => simp [Carries, ackedEvents, deliver, hp, hi, hserve]
      · simp [Carries, hp, hi, hserve]

/-- No other step adds to them. -/
theorem ackedEvents_step (hw : p.Wired) (ha : ∀ i success, a ≠ .report i success)
    (he : event ∈ (p.step H st a).ackedEvents) : event ∈ p.ackedEvents := by
  have hm := move_step H st p a
  generalize p.step H st a = p' at hm he
  -- the numbers acked are those of events received before
  have hold : ∀ seen : List Val, event ∈ p.acked.filterMap (fun n => (p.seen ++ seen)[n]?) →
      event ∈ p.ackedEvents := by
    intro seen hmem
    obtain ⟨n, hn, hev⟩ := List.mem_filterMap.1 hmem
    rw [List.getElem?_append_left (hw.acked n hn)] at hev
    exact List.mem_filterMap.2 ⟨n, hn, hev⟩
  cases hm with
  | recv | recvFails => exact hold _ he
  | report => exact absurd rfl (ha _ _)
  | stay | drain | abandon | register | produce | produceDlq | quiet => exact he

end Proc

/-- A save comes through (also one that raises once it is applied) with the least registered cursor acked. -/
def Service.SavesLeast (st : IngestSettings) (s : Service) (a : Service.Act) : Prop :=
  (a = .call ∨ a = .raise true) ∧ ∃ l, s.life = some l ∧ l.proc.AtSave st ∧ l.proc.LeastAcked

/-- The broker reports a message of the event as delivered. -/
def Service.Confirms (event : Val) (s : Service) (a : Service.Act) : Prop :=
  ∃ i l, a = .report i true ∧ s.life = some l ∧ l.proc.Carries event i

/-- Without a cursor a connection starts at the live position: none of the events received lies after it. -/
def Service.Live (log : SourceLog) (s : Service) (position : ℕ) : Prop :=
  ∀ e ∈ s.received, e ∉ log.events.drop position

/-- Every accepted event that was received is acked, or every connection that the next life opens delivers
it. -/
def Service.Resumes (H : Host) (log : SourceLog) (s : Service) : Prop :=
  ∀ event ∈ s.received, (∃ m, toModel H event = .ok m) →
    event ∈ s.acked ∨ ∀ b pos, s.Live log pos → event ∈ log.connect s.stored b pos

/-- From its first event on, a connection without a cursor delivers what one with the cursor just before it
does. -/
theorem SourceLog.drop_eq_connect {pos : ℕ} {rest : List Val} (h : log.events.drop pos = event :: rest)
    (ht : timeUs event = some t) : log.events.drop pos = log.connect (some (t - 1)) false 0 := by
  have hsplit : log.events = log.events.take pos ++ event :: rest := by
    rw [← h, List.take_append_drop]
  obtain ⟨hbefore, hafter⟩ := log.time_lt hsplit ht
  have hnone : (log.events.take pos).filter
      (fun e => (timeUs e).any fun x => decide (t - 1 < x) || false && decide (x = t - 1)) = [] := by
    rw [List.filter_eq_nil_iff]
    intro e he
    cases hx : timeUs e with
    | none => simp
    | some x =>
      have hlt := hbefore e he x hx
      simp only [Option.any_some, Bool.false_and, Bool.or_false, decide_eq_true_eq]
      omega
  have hall : (event :: rest).filter
      (fun e => (timeUs e).any fun x => decide (t - 1 < x) || false && decide (x = t - 1)) = event :: rest := by
    rw [List.filter_eq_self]
    intro e he
    have hmem : e ∈ log.events := by
      rw [hsplit]
      exact List.mem_append_right _ he
    obtain ⟨x, hx⟩ := Option.isSome_iff_exists.1 (log.timed e hmem)
    have hle : t ≤ x := by
      rcases List.mem_cons.1 he with rfl | he
      · exact (Option.some.inj (ht.symm.trans hx)).le
      · exact (hafter e he x hx).le
    simp only [hx, Option.any_some, Bool.false_and, Bool.or_false, decide_eq_true_eq]
    omega
  rw [SourceLog.connect, hsplit, List.filter_append, hnone, hall, ← hsplit, h, List.nil_append]

namespace Service

variable {s : Service} {l : Life} {a : Act}

/-! ## What is stored, and what is acked -/

/-- What every life keeps that begins with nothing stored. -/
structure Forming (log : SourceLog) (s : Service) : Prop where
  sweeping : s.Sweeping log
  formed : ∀ l, s.life = some l → l.proc.Formed
  saved : ∀ l, s.life = some l → l.proc.cp.savedCursor ≠ none → s.stored ≠ none
  acked : ∀ l, s.life = some l → ∀ e ∈ l.proc.ackedEvents, e ∈ s.acked

theorem forming_init (log : SourceLog) (stored : Option ℤ) : (init stored).Forming log where
  sweeping := sweeping_init log stored
  formed := by simp [init]
  saved := by simp [init]
  acked := by simp [init]

/-- A step that leaves the process as it is, and what is stored and acked. -/
theorem Forming.frame (h : s.Forming log) {s' : Service} (hsweeping : s'.Sweeping log)
    (hstored : s'.stored = s.stored) (hacked : s'.acked = s.acked)
    (hlife : ∀ l', s'.life = some l' → ∃ l, s.life = some l ∧ l'.proc = l.proc) : s'.Forming log where
  sweeping := hsweeping
  formed := by
    intro l' hl'
    obtain ⟨l, hl, hproc⟩ := hlife l' hl'
    rw [hproc]
    exact h.formed l hl
  saved := by
    intro l' hl'
    obtain ⟨l, hl, hproc⟩ := hlife l' hl'
    rw [hproc, hstored]
    exact h.saved l hl
  acked := by
    intro l' hl'
    obtain ⟨l, hl, hproc⟩ := hlife l' hl'
    rw [hproc, hacked]
    exact h.acked l hl

/-- The process goes on; the store takes what a call saves, and what a report acks is acked. -/
theorem Forming.proc (H : Host) (st : IngestSettings) (h : s.Forming log) (hlife : s.life = some l) (a : Proc.Act)
    {s' : Service} (hsweeping : s'.Sweeping log) {l' : Life} (hlife' : s'.life = some l')
    (hproc : l'.proc = l.proc.step H st a)
    (hstored : s'.stored = (l.proc.saves st a).or s.stored ∨ s'.stored = s.stored ∧ a ≠ .call)
    (hacked : s'.acked = s.acked ++ (l.proc.step H st a).ackedEvents ∨
      s'.acked = s.acked ∧ ∀ i success, a ≠ .report i success) : s'.Forming log := by
  obtain ⟨k, ht⟩ := (h.sweeping.inOrder l hlife).exists_tracks
  refine ⟨hsweeping, fun l'' hl'' => ?_, fun l'' hl'' hsaved => ?_, fun l'' hl'' e he => ?_⟩
  · obtain rfl := Option.some.inj (hlife'.symm.trans hl'')
    rw [hproc]
    exact Proc.formed_step (h.formed l hlife) (h.sweeping.swept l hlife) (h.sweeping.lettered l hlife) ht a
  · obtain rfl := Option.some.inj (hlife'.symm.trans hl'')
    rw [hproc] at hsaved
    by_cases hcall : a = .call
    · subst hcall
      rw [(Proc.call_saved H st l.proc).2] at hsaved
      rcases hstored with hstored | ⟨-, hne⟩
      · rw [hstored]
        cases hv : l.proc.saves st .call with
        | none =>
          rw [hv, Option.none_or] at hsaved
          exact h.saved l hlife hsaved
        | some v => simp
      · exact absurd rfl hne
    · rw [Proc.saved_step hcall] at hsaved
      have hold := h.saved l hlife hsaved
      rcases hstored with hstored | ⟨hstored, -⟩
      · rw [hstored]
        cases l.proc.saves st a with
        | none => exact hold
        | some v => simp
      · rw [hstored]
        exact hold
  · obtain rfl := Option.some.inj (hlife'.symm.trans hl'')
    rw [hproc] at he
    rcases hacked with hacked | ⟨hacked, hne⟩
    · rw [hacked]
      exact List.mem_append_right _ he
    · rw [hacked]
      exact h.acked l hlife e (Proc.ackedEvents_step ht.wired hne he)

/-- **What a step keeps.** -/
theorem forming_step (H : Host) (st : IngestSettings) (h : s.Forming log) (a : Act) :
    (s.step H st log a).Forming log := by
  have hsweeping : (s.step H st log a).Sweeping log := sweeping_step h.sweeping a
  have hm := move_step H st log s a
  generalize s.step H st log a = s' at hm hsweeping ⊢
  cases hm with
  | stay => exact h
  | @boot now _ =>
    refine ⟨hsweeping, fun l hl => ?_, fun l hl hsaved => ?_, fun l hl e he => ?_⟩
    · rw [← Option.some.inj hl]
      exact Proc.formed_init now
    · rw [← Option.some.inj hl] at hsaved
      exact absurd rfl hsaved
    · rw [← Option.some.inj hl] at he
      cases he
  | crash =>
    refine h.frame hsweeping rfl rfl fun l' hl' => ?_
    cases hl'
  | connect hl | drop hl =>
    refine h.frame hsweeping rfl rfl fun l' hl' => ⟨_, hl, ?_⟩
    rw [← Option.some.inj hl']
  | @recv l now event rest hl =>
    exact h.proc H st hl (.recv event now) hsweeping rfl rfl (Or.inl rfl) (Or.inr ⟨rfl, by simp⟩)
  | stop hl => exact h.proc H st hl .stop hsweeping rfl rfl (Or.inl rfl) (Or.inr ⟨rfl, by simp⟩)
  | call hl => exact h.proc H st hl .call hsweeping rfl rfl (Or.inl rfl) (Or.inr ⟨rfl, by simp⟩)
  | @raise l applied hl =>
    cases applied with
    | true => exact h.proc H st hl .raise hsweeping rfl rfl (Or.inl rfl) (Or.inr ⟨rfl, by simp⟩)
    | false => exact h.proc H st hl .raise hsweeping rfl rfl (Or.inr ⟨rfl, by simp⟩) (Or.inr ⟨rfl, by simp⟩)
  | @report l i success hl => exact h.proc H st hl (.report i success) hsweeping rfl rfl (Or.inl rfl) (Or.inl rfl)

/-- What a save that comes through leaves in the store. -/
theorem Forming.saves_iff (h : s.Forming log) (hl : s.life = some l) {a : Proc.Act} (ha : a = .call ∨ a = .raise) :
    (l.proc.saves st a).or s.stored ≠ none ↔ s.stored ≠ none ∨ l.proc.AtSave st ∧ l.proc.LeastAcked := by
  by_cases hstored : s.stored = none
  · have hsaved : l.proc.cp.savedCursor = none := by
      by_contra hne
      exact h.saved l hl hne hstored
    rw [hstored, Option.or_none, Proc.saves_iff (h.formed l hl) (h.sweeping.swept l hl) ha hsaved]
    simp
  · refine ⟨fun _ => Or.inl hstored, fun _ => ?_⟩
    cases l.proc.saves st a with
    | none => exact hstored
    | some v => simp

/-- **When a cursor is stored.** -/
theorem Forming.stored_step (h : s.Forming log) (a : Act) :
    (s.step H st log a).stored ≠ none ↔ s.stored ≠ none ∨ s.SavesLeast st a := by
  have hm := move_step H st log s a
  generalize s.step H st log a = s' at hm ⊢
  cases hm with
  | @stay a ha =>
    have hno : ¬ s.SavesLeast st a := by
      rintro ⟨rfl | rfl, l, hl, -⟩ <;> cases ha (by simp [hl])
    exact ⟨Or.inl, fun hs => hs.resolve_right hno⟩
  | call hl =>
    rw [h.saves_iff hl (Or.inl rfl)]
    simp [SavesLeast, hl]
  | @raise l applied hl =>
    cases applied with
    | true =>
      rw [if_pos rfl, h.saves_iff hl (Or.inr rfl)]
      simp [SavesLeast, hl]
    | false => simp [SavesLeast]
  | boot | crash | connect | drop | recv | stop | report => simp [SavesLeast]

/-- **When an event is acked.** -/
theorem Forming.acked_step (h : s.Forming log) (a : Act) (event : Val) :
    event ∈ (s.step H st log a).acked ↔ event ∈ s.acked ∨ s.Confirms event a := by
  have hm := move_step H st log s a
  generalize s.step H st log a = s' at hm ⊢
  cases hm with
  | @stay a ha =>
    have hno : ¬ s.Confirms event a := by
      rintro ⟨i, l, rfl, hl, -⟩
      cases ha (by simp [hl])
    exact ⟨Or.inl, fun hs => hs.resolve_right hno⟩
  | @report l i success hl =>
    have hold : event ∈ l.proc.ackedEvents → event ∈ s.acked := h.acked l hl event
    simp only [List.mem_append, Proc.mem_ackedEvents_report, Confirms, hl]
    cases success with
    | false => simpa using hold
    | true => simp; tauto
  | boot | crash | connect | drop | recv | stop | call | raise => simp [Confirms]

/-- A cursor is stored when a save has come through with the least registered cursor acked. -/
theorem stored_run (H : Host) (st : IngestSettings) (log : SourceLog) (as : List Act) :
    (Trace.run (step H st log) (init none) as).stored ≠ none ↔
      Trace.Sometime (step H st log) (SavesLeast st) (init none) as := by
  have hrun := Trace.run_iff_sometime (B := fun s : Service => s.stored ≠ none) (fun _ a h => forming_step H st h a)
    (fun _ a h => h.stored_step a) (forming_init log none) as
  exact hrun.trans (or_iff_right (by simp [init]))

/-- An event is acked when some report has confirmed it. -/
theorem acked_run (H : Host) (st : IngestSettings) (log : SourceLog) (as : List Act) (event : Val) :
    event ∈ (Trace.run (step H st log) (init none) as).acked ↔
      Trace.Sometime (step H st log) (Confirms event) (init none) as := by
  have hrun := Trace.run_iff_sometime (B := fun s : Service => event ∈ s.acked) (fun _ a h => forming_step H st h a)
    (fun _ a h => h.acked_step a event) (forming_init log none) as
  exact hrun.trans (or_iff_right (by simp [init]))

/-! ## The first life -/

/-- The service as if it had started from the cursor `k`. -/
def startedAt (k : ℤ) (s : Service) : Service := { s with stored := s.stored.or (some k) }

/-- Within a life the store is not read. -/
theorem startedAt_step (hl : s.life = some l) (ha : a ≠ .crash) :
    (s.step H st log a).startedAt k = (s.startedAt k).step H st log a := by
  have hl' : (s.startedAt k).life = some l := hl
  have hyield : ∀ act, (s.yield H st l act).startedAt k = (s.startedAt k).yield H st l act := by
    intro act
    unfold Service.yield
    split
    · split <;> rfl
    · rfl
  cases a with
  | crash => exact absurd rfl ha
  | boot => simp only [step, hl, hl']
  | connect b pos =>
    simp only [step, hl, hl']
    split <;> rfl
  | drop => simp only [step, hl, hl']; rfl
  | recv now => simp only [step, hl, hl', hyield]
  | stop => simp only [step, hl, hl', hyield]
  | call =>
    simp only [step, hl, startedAt]
    rw [Option.or_assoc]
  | raise applied =>
    simp only [step, hl, startedAt]
    cases applied
    · rfl
    · simp only [if_true, Option.or_assoc]
  | report => simp only [step, hl, hl']; rfl

/-- A life that has received no event: nothing is stored. -/
def Waiting (log : SourceLog) (s : Service) : Prop :=
  ∃ now conn, s = ⟨none, some ⟨none, conn, .init now⟩, [], []⟩ ∧
    ∀ rest, conn = some rest → ∃ pos, rest = log.events.drop pos

/-- A life that goes as one resumed from `k`, all of whose events are above `k`. -/
structure Begun (H : Host) (log : SourceLog) (k : ℤ) (s : Service) : Prop where
  sound : (s.startedAt k).Sound log (due H log k)
  life : ∃ l k', s.life = some l ∧ l.latest = some k' ∧ k < k'
  received : ∀ e ∈ s.received, ∃ t, timeUs e = some t ∧ k < t

/-- **A life that has received an event goes on as a resumed one.** -/
theorem begun_step (h : s.Begun H log k) (ha : a ≠ .crash) : (s.step H st log a).Begun H log k := by
  obtain ⟨l, k', hl, hlatest, hk⟩ := h.life
  obtain ⟨⟨latest, hlatest', -, hconn⟩, -⟩ := h.sound.life l hl
  obtain rfl : latest = k' := Option.some.inj (hlatest'.symm.trans hlatest)
  have hsound : ((s.step H st log a).startedAt k).Sound log (due H log k) := by
    rw [startedAt_step hl ha]
    exact h.sound.step st a
  have hm := move_step H st log s a
  generalize s.step H st log a = s' at hm hsound ⊢
  have hsame : ∀ l', s.life = some l' → l' = l := fun l' hl' => Option.some.inj (hl'.symm.trans hl)
  -- an event that the client yields comes after those before
  have hnext : ∀ {event rest}, l.conn = some (event :: rest) → ∃ t, timeUs event = some t ∧ k < t := by
    intro event rest hrest
    obtain ⟨b, hb⟩ := hconn _ hrest
    obtain ⟨t, ht, -, hle, -⟩ := SourceLog.connect_cons hb.symm
    exact ⟨t, ht, by omega⟩
  have hreceived : ∀ {event t}, timeUs event = some t → k < t → ∀ e ∈ s.received ++ [event],
      ∃ t, timeUs e = some t ∧ k < t := by
    intro event t ht hlt e he
    rcases List.mem_append.1 he with he | he
    · exact h.received e he
    · obtain rfl := List.mem_singleton.1 he
      exact ⟨t, ht, hlt⟩
  cases hm with
  | stay => exact h
  | crash => exact absurd rfl ha
  | boot hnone => rw [hnone] at hl; cases hl
  | connect hl' | drop hl' | call hl' | raise hl' | report hl' =>
    obtain rfl := hsame _ hl'
    exact ⟨hsound, ⟨_, latest, rfl, hlatest, hk⟩, h.received⟩
  | recv hl' hrest | stop hl' hrest =>
    obtain rfl := hsame _ hl'
    obtain ⟨t, ht, hlt⟩ := hnext hrest
    exact ⟨hsound, ⟨_, t, rfl, by simp [ht], hlt⟩, hreceived ht hlt⟩

/-- The first event of a life is the one its connection starts with. -/
theorem begun_yield {now : ℤ} {conn : List Val} {pos : ℕ} (hconn : conn = log.events.drop pos)
    (hs : s = ⟨none, some ⟨none, some conn, .init now⟩, [], []⟩) (ha : a = .stop ∨ ∃ now, a = .recv now) :
    s.step H st log a = s ∨ ∃ k, (s.step H st log a).Begun H log k := by
  cases conn with
  | nil =>
    subst hs
    rcases ha with rfl | ⟨now, rfl⟩
    · exact Or.inl rfl
    · exact Or.inl rfl
  | cons event rest =>
    have hmem : event ∈ log.events := by
      have hd : event ∈ log.events.drop pos := hconn ▸ List.mem_cons_self
      exact List.mem_of_mem_drop hd
    obtain ⟨t, ht⟩ := Option.isSome_iff_exists.1 (log.timed event hmem)
    have hstart : event :: rest = log.connect (some (t - 1)) false 0 := by
      rw [← SourceLog.drop_eq_connect hconn.symm ht]
      exact hconn
    -- the same life, resumed from the cursor just before the event
    have hcleared : Cleared (due H log (t - 1)) (ackedTimes []) (t - 1) := by
      intro x hx hle
      exact absurd hx.1 (not_lt.2 hle)
    have hresumed : Sound log (due H log (t - 1))
        ⟨some (t - 1), some ⟨some (t - 1), some (event :: rest), .init now⟩, [], []⟩ := by
      refine ⟨by simp, by simp, ⟨t - 1, rfl, hcleared⟩, ?_⟩
      rintro l hl
      obtain rfl := Option.some.inj hl
      refine ⟨⟨t - 1, rfl, Proc.Tracks.init hcleared now, ?_⟩, by simp [Proc.init]⟩
      rintro r hr
      obtain rfl := Option.some.inj hr
      exact ⟨false, hstart⟩
    have hsound := hresumed.step st a
    refine Or.inr ⟨t - 1, ?_⟩
    subst hs
    have hidle : (Proc.init now).idle = true := rfl
    rcases ha with rfl | ⟨now', rfl⟩
    all_goals
      simp only [step, Service.yield, hidle, if_true, ht, Option.some_or, List.nil_append] at hsound ⊢
      refine ⟨hsound, ⟨_, t, rfl, rfl, by omega⟩, ?_⟩
      intro e he
      obtain rfl := List.mem_singleton.1 he
      exact ⟨t, ht, by omega⟩

theorem waiting_step (h : s.Waiting log) (ha : a ≠ .crash) :
    (s.step H st log a).Waiting log ∨ ∃ k, (s.step H st log a).Begun H log k := by
  obtain ⟨now, conn, rfl, hconn⟩ := h
  have hstay : Waiting log ⟨none, some ⟨none, conn, .init now⟩, [], []⟩ := ⟨now, conn, rfl, hconn⟩
  have hyield : (a = .stop ∨ ∃ now, a = .recv now) →
      (step H st log ⟨none, some ⟨none, conn, .init now⟩, [], []⟩ a).Waiting log ∨
        ∃ k, (step H st log ⟨none, some ⟨none, conn, .init now⟩, [], []⟩ a).Begun H log k := by
    intro ha
    cases conn with
    | none =>
      rcases ha with rfl | ⟨now, rfl⟩
      · exact Or.inl hstay
      · exact Or.inl hstay
    | some rest =>
      obtain ⟨pos, hpos⟩ := hconn rest rfl
      rcases begun_yield hpos rfl ha with hsame | hbegun
      · rw [hsame]
        exact Or.inl hstay
      · exact Or.inr hbegun
  cases a with
  | crash => exact absurd rfl ha
  | connect b pos =>
    simp only [step]
    split
    · refine Or.inl ⟨now, _, rfl, ?_⟩
      rintro rest hr
      exact ⟨pos, (Option.some.inj hr).symm⟩
    · exact Or.inl hstay
  | drop => exact Or.inl ⟨now, none, rfl, by simp⟩
  | recv now => exact hyield (Or.inr ⟨now, rfl⟩)
  | stop => exact hyield (Or.inl rfl)
  | boot | call => exact Or.inl hstay
  | raise applied =>
    cases applied
    · exact Or.inl hstay
    · exact Or.inl hstay
  | report i success => exact Or.inl hstay

variable (H st) in
/-- A first life waits for its first event or has begun. -/
theorem waiting_run (h : s.Waiting log) {as : List Act} (hlife : ∀ a ∈ as, a ≠ .crash) :
    (Trace.run (step H st log) s as).Waiting log ∨ ∃ k, (Trace.run (step H st log) s as).Begun H log k := by
  refine Trace.run_inv_along (I := fun s : Service => s.Waiting log ∨ ∃ k, s.Begun H log k) ?_ (Or.inl h)
    (Trace.along_of_forall fun _ a ha => hlife a ha)
  rintro s a ha (hw | ⟨k, hb⟩)
  · exact waiting_step hw ha
  · exact Or.inr ⟨k, begun_step hb ha⟩

/-- **With nothing stored, a received event is not delivered again.** -/
theorem not_replayed (log : SourceLog) (hstored : s.stored = none) (b : Bool) :
    ∃ pos, s.Live log pos ∧ log.connect s.stored b pos = [] := by
  refine ⟨log.events.length, ?_, ?_⟩
  · intro e _
    rw [List.drop_length]
    exact List.not_mem_nil
  · rw [hstored, SourceLog.connect, List.drop_length]

theorem Begun.resumes_iff (h : s.Begun H log k) : s.Resumes H log ↔
    s.stored ≠ none ∨ ∀ event ∈ s.received, (∃ m, toModel H event = .ok m) → event ∈ s.acked := by
  constructor
  · intro hres
    by_cases hstored : s.stored = none
    · refine Or.inr fun event he hm => ?_
      rcases hres event he hm with hacked | hagain
      · exact hacked
      · obtain ⟨pos, hlive, hnil⟩ := not_replayed log hstored false
        have hmem := hagain false pos hlive
        rw [hnil] at hmem
        cases hmem
    · exact Or.inl hstored
  · rintro (hstored | hall) event he ⟨m, hm⟩
    · obtain ⟨v, hv⟩ := Option.ne_none_iff_exists'.1 hstored
      obtain ⟨t, ht, hk⟩ := h.received event he
      rcases h.sound.acked_or_replayed he hm ht hk with hacked | ⟨v', hv', -, hagain⟩
      · exact Or.inl hacked
      · refine Or.inr fun b pos _ => ?_
        have hsome : some v = some v' := by
          rw [← hv']
          simp [startedAt, hv]
        rw [hv, hsome]
        exact hagain b pos
    · exact Or.inl (hall event he ⟨m, hm⟩)

end Service

/-- **A fresh stream.** Whatever the first life of a stream receives and whatever reports it gets: when it
is gone, every accepted event received is acked or delivered again exactly when at some step of that life a save
came through with the least registered cursor acked, or each of these events was reported as delivered at some
step. -/
theorem fresh_resumes_iff (H : Host) (st : IngestSettings) (log : SourceLog) (now : ℤ)
    (as : List Service.Act) (hlife : ∀ a ∈ as, a ≠ .crash) :
    let s := Trace.run (Service.step H st log) (.init none) (.boot now :: as)
    s.Resumes H log ↔
      Trace.Sometime (Service.step H st log) (Service.SavesLeast st) (.init none) (.boot now :: as) ∨
        ∀ event ∈ s.received, (∃ m, toModel H event = .ok m) →
          Trace.Sometime (Service.step H st log) (Service.Confirms event) (.init none) (.boot now :: as) := by
  intro s
  simp only [← Service.stored_run, ← Service.acked_run]
  have hboot : ((Service.init none).step H st log (.boot now)).Waiting log := ⟨now, none, rfl, by simp⟩
  rcases Service.waiting_run H st hboot hlife with ⟨now', conn, hw, -⟩ | ⟨k, hb⟩
  · -- no event has been received
    have hs : s = ⟨none, some ⟨none, conn, .init now'⟩, [], []⟩ := hw
    rw [hs]
    simp [Service.Resumes]
  · exact hb.resumes_iff

/-- The first of two posts fails, the second is acked: the watermark does not form. -/
def firstFails : List Service.Act :=
  [.connect false 0, .recv 0, .call, .call, .call, .report 0 false, .call, .call, .recv 1, .call, .call,
    .call, .report 0 true, .call, .call]

/-- The first life of a stream of two posts. -/
def freshService (as : List Service.Act) : Service := newService (.boot 0 :: as)

/-- Both posts are produced, the first is acked; the next call saves its cursor. -/
def firstAcked : List Service.Act :=
  [.connect false 0, .recv 0, .call, .call, .call, .call, .call, .recv 1, .call, .call, .call,
    .report 0 true, .call]

/-- The least registered cursor is acked, and the checkpointer saves at each ack. -/
theorem fresh_resumes_saved : (freshService (firstAcked ++ [.call])).Resumes asciiHost postLog := by
  obtain ⟨l, hlife, htodo, hregistered, hacked⟩ : ∃ l, (freshService firstAcked).life = some l ∧
      l.proc.todo = [.maybeSave 1] ∧ l.proc.registered = [(0, 10), (1, 20)] ∧ l.proc.acked = [0] :=
    ⟨_, rfl, rfl, rfl, rfl⟩
  have hacks : (freshService firstAcked).life.map (fun l => l.proc.cp.acksSinceSave) = some 1 := by decide
  rw [hlife, Option.map_some, Option.some.injEq] at hacks
  have hsaves : (freshService firstAcked).SavesLeast everyAck .call := by
    refine ⟨Or.inl rfl, l, hlife, ?_, ?_⟩
    · rw [Proc.AtSave, htodo]
      exact Or.inl (by rw [hacks]; decide)
    · rw [Proc.LeastAcked, hregistered, hacked]
      exact ⟨(0, 10), by decide, by decide, by decide⟩
  have hsometime : Trace.Sometime (Service.step asciiHost everyAck postLog) (Service.SavesLeast everyAck)
      (.init none) (.boot 0 :: (firstAcked ++ [.call])) := by
    rw [← List.cons_append, Trace.sometime_append]
    exact Or.inr (Or.inl hsaves)
  have hlives : ∀ a ∈ firstAcked ++ [.call], a ≠ .crash := by simp [firstAcked]
  have hiff := fresh_resumes_iff asciiHost everyAck postLog 0 (firstAcked ++ [.call]) hlives
  exact hiff.2 (Or.inl hsometime)

/-- **The post that failed is lost**: it is not acked, no cursor is stored, and the next life starts behind
it. -/
theorem fresh_stream_gap :
    (freshService firstFails).stored = none ∧
      (freshService firstFails).received = [postEvent 10 (.str "one"), postEvent 20 (.str "two")] ∧
      (freshService firstFails).acked = [postEvent 20 (.str "two")] ∧
      ¬ (freshService firstFails).Resumes asciiHost postLog := by
  refine ⟨rfl, rfl, rfl, ?_⟩
  intro hres
  have hstored : (freshService firstFails).stored = none := rfl
  have hreceived : postEvent 10 (.str "one") ∈ (freshService firstFails).received := List.mem_cons_self
  rcases hres _ hreceived ⟨_, rfl⟩ with hacked | hagain
  · -- the two posts have different `time_us`
    have hone := List.mem_singleton.1 (show _ ∈ [postEvent 20 (.str "two")] from hacked)
    have htime : some (10 : ℤ) = some 20 := congrArg timeUs hone
    cases htime
  · obtain ⟨pos, hlive, hnil⟩ := Service.not_replayed postLog hstored false
    have hmem := hagain false pos hlive
    rw [hnil] at hmem
    cases hmem

end BlueskyTrends
