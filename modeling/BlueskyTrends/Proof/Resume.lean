import BlueskyTrends.Proof.Cursor
import BlueskyTrends.Ingest.Service

/-!
# Resuming without a gap

`resume_no_gap`: once a cursor is stored, every event that some life received and `to_model`
accepts has been acked by the broker or lies above the stored cursor, where the next
connection delivers it again.

A life keeps `Tracks`: what the source has delivered up to the client's latest cursor is acked,
pending, or in the loop's hands; so all up to the watermark is acked, and the watermark is all
that is ever saved.
-/

namespace BlueskyTrends

open Checkpointer

variable {H : Host} {st : IngestSettings} {log : SourceLog} {p p' : Proc} {a : Proc.Act} {event : Val}
  {R A A' : Set ℤ} {k k' now v t : ℤ}

/-- All of `R` up to `v` is in `A`. -/
def Cleared (R A : Set ℤ) (v : ℤ) : Prop := ∀ t ∈ R, t ≤ v → t ∈ A

theorem Cleared.mono (h : Cleared R A v) (hA : A ⊆ A') : Cleared R A' v := fun t ht hle => hA (h t ht hle)

namespace Proc

/-- The event with cursor `t` is in the loop's hands: about to be registered, or left behind by a
process that is on its way out. -/
def InHand (p : Proc) (t : ℤ) : Prop := (∃ rest, p.todo = .register t :: rest) ∨ p.draining = true

/-- The process accounts for the events of `R` that the client has delivered, up to `k`; `A` are
the acked ones. -/
structure Tracks (R A : Set ℤ) (k : ℤ) (p : Proc) : Prop where
  wired : p.Wired
  registered : ∀ x ∈ p.registered, ∃ e, p.seen[x.1]? = some e ∧ timeUs e = some x.2
  acked : ∀ n ∈ p.acked, ∀ e, p.seen[n]? = some e → ∀ t, timeUs e = some t → t ∈ A
  todo : ∀ c, .register c ∈ p.todo → c = k ∧ ∃ e, p.seen[p.current]? = some e ∧ timeUs e = some c
  pending : ∀ c ∈ p.cp.pendingAcks, c ≤ k
  marked : ∀ c, p.cp.pendingAcks.lookup c = some true → c ∈ A
  safe : ∀ v, p.cp.safeCursor = some v → v ≤ k ∧ Cleared R A v
  cover : ∀ t ∈ R, t ≤ k → t ∈ A ∨ t ∈ p.cp.pendingAcks ∨ t = k ∧ p.InHand t

namespace Tracks

/-- A process that starts where everything up to `k` is acked. -/
theorem init (h : Cleared R A k) (now : ℤ) : Tracks R A k (init now) where
  wired := wired_init now
  registered := by simp [Proc.init]
  acked := by simp [Proc.init]
  todo := by simp [Proc.init]
  pending := by simp [Proc.init, Checkpointer.init]
  marked := by simp [Proc.init, Checkpointer.init]
  safe := by simp [Proc.init, Checkpointer.init]
  cover := fun t ht hle => Or.inl (h t ht hle)

/-- A step that keeps the pending cursors and the watermark. -/
theorem frame (h : Tracks R A k p) (hw : p'.Wired) (hseen : p'.seen = p.seen)
    (hr : p'.registered = p.registered) (ha : p'.acked = p.acked)
    (ht : ∀ c, .register c ∈ p'.todo → .register c ∈ p.todo) (hs : Saved p.cp p'.cp)
    (hh : ∀ t, p.InHand t → p'.InHand t) : Tracks R A k p' where
  wired := hw
  registered := fun x hx => by rw [hseen]; exact h.registered x (hr ▸ hx)
  acked := fun n hn e he => h.acked n (ha ▸ hn) e (hseen ▸ he)
  todo := fun c hc => by rw [current, hseen]; exact h.todo c (ht c hc)
  pending := fun c hc => h.pending c (hs.pending ▸ hc)
  marked := fun c hc => h.marked c (hs.pending ▸ hc)
  safe := fun v hv => h.safe v (hs.safe ▸ hv)
  cover := fun t htR hle => by
    rcases h.cover t htR hle with h1 | h1 | ⟨h1, h2⟩
    · exact Or.inl h1
    · exact Or.inr (Or.inl (hs.pending ▸ h1))
    · exact Or.inr (Or.inr ⟨h1, hh t h2⟩)

theorem mono (h : Tracks R A k p) (hA : A ⊆ A') : Tracks R A' k p where
  wired := h.wired
  registered := h.registered
  acked := fun n hn e he t ht => hA (h.acked n hn e he t ht)
  todo := h.todo
  pending := h.pending
  marked := fun c hc => hA (h.marked c hc)
  safe := fun v hv => (h.safe v hv).imp id fun hcl => hcl.mono hA
  cover := fun t ht hle => (h.cover t ht hle).imp (fun hh => hA hh) id

theorem register (h : Tracks R A k p) {c : ℤ} {rest : List Call} (ht : p.todo = .register c :: rest) :
    Tracks R A k { p with
      todo := rest, cp := p.cp.register c, registered := p.registered ++ [(p.current, c)] } := by
  obtain ⟨hck, e, he, htime⟩ := h.todo c (by rw [ht]; exact List.mem_cons_self)
  refine ⟨h.wired.register ht _, fun x hx => ?_, h.acked, fun x hx => ?_, fun x hx => ?_, fun x hx => ?_,
    fun v hv => h.safe v (by simpa using hv), fun t htR hle => ?_⟩
  · rcases List.mem_append.1 hx with hx | hx
    · exact h.registered x hx
    · obtain rfl := List.mem_singleton.1 hx; exact ⟨e, he, htime⟩
  · exact h.todo x (by rw [ht]; exact List.mem_cons_of_mem _ hx)
  · rcases mem_register.1 hx with rfl | hx
    · exact hck.le
    · exact h.pending x hx
  · have : x ∈ (p.cp.register c).marked := hx
    rw [marked_register] at this
    exact h.marked x this
  · rcases h.cover t htR hle with h1 | h1 | ⟨h1, h2⟩
    · exact Or.inl h1
    · exact Or.inr (Or.inl (mem_register.2 (Or.inr h1)))
    · exact Or.inr (Or.inl (mem_register.2 (Or.inl (h1.trans hck.symm))))

/-- **A report**: what the fold takes out is acked, and so is all of `R` below it. -/
theorem report (h : Tracks R A k p) {i : ℕ} {d : Delivery} {success : Bool} (hi : p.inflight[i]? = some d)
    (hA : A ⊆ A')
    (hack : success = true → ∀ e, p.seen[d.event]? = some e → ∀ t, timeUs e = some t → t ∈ A') :
    Tracks R A' k ({ p with inflight := p.inflight.eraseIdx i }.deliver d success) := by
  have hw := h.wired.report hi success
  have hacked : ∀ n ∈ ({ p with inflight := p.inflight.eraseIdx i }.deliver d success).acked,
      ∀ e, p.seen[n]? = some e → ∀ t, timeUs e = some t → t ∈ A' := by
    intro n hn e he t ht
    simp only [deliver] at hn
    split at hn
    · rcases List.mem_append.1 hn with hn | hn
      · exact hA (h.acked n hn e he t ht)
      · obtain rfl := List.mem_singleton.1 hn
        exact hack ‹_› e he t ht
    · exact hA (h.acked n hn e he t ht)
  have stay : ∀ (hcp : ({ p with inflight := p.inflight.eraseIdx i }.deliver d success).cp = p.cp),
      Tracks R A' k ({ p with inflight := p.inflight.eraseIdx i }.deliver d success) := by
    intro hcp
    have h' := h.mono hA
    exact ⟨hw, h.registered, hacked, h.todo, fun c hc => h'.pending c (hcp ▸ hc),
      fun c hc => h'.marked c (hcp ▸ hc),
      fun v hv => h'.safe v (hcp ▸ hv), fun t ht hle => by rw [hcp]; exact h'.cover t ht hle⟩
  cases hc : d.cursor with
  | none => exact stay (by simp only [deliver, hc])
  | some c =>
    cases success with
    | false => exact stay (by simp only [deliver, hc, onAck_false])
    | true =>
      have hcp : ({ p with inflight := p.inflight.eraseIdx i }.deliver d true).cp = p.cp.onAck true c := by
        simp only [deliver, hc]
      obtain ⟨e, he, htime⟩ := h.registered _ (h.wired.cursor d (List.mem_of_getElem? hi) c hc)
      have hcA : c ∈ A' := hack rfl e he c htime
      have hf := p.cp.onAck_folded c
      have hsettled : ∀ x ∈ (p.cp.mark c).foldable, x ∈ A' := by
        intro x hx
        rcases (hf.acked x hx).2 with rfl | hl
        · exact hcA
        · exact hA (h.marked x hl)
      refine ⟨hw, h.registered, hacked, h.todo, fun x hx => ?_, fun x hx => ?_, fun v hv => ?_,
        fun t ht hle => ?_⟩
      · rw [hcp] at hx
        exact h.pending x ((hf.mem x).1 hx).1
      · rw [hcp] at hx
        rcases hf.lookup x hx with rfl | hl
        · exact hcA
        · exact hA (h.marked x hl)
      -- the new mark: what is below it was acked, or has just been folded
      · rw [hcp] at hv
        rcases hf.safe with ⟨-, hs⟩ | ⟨w, hw, hs⟩
        · exact (h.safe v (hs ▸ hv)).imp id fun hcl => hcl.mono hA
        · obtain rfl : w = v := Option.some.inj (hs.symm.trans hv)
          have hwp := (hf.acked w hw.1).1
          refine ⟨h.pending w hwp, fun t ht htw => ?_⟩
          rcases h.cover t ht (htw.trans (h.pending w hwp)) with h1 | h1 | ⟨h1, -⟩
          · exact hA h1
          · exact hsettled t (hf.down t h1 w hw.1 htw)
          · -- the event in hand has the greatest cursor: it is the mark itself
            obtain rfl : t = w := le_antisymm htw (h1 ▸ h.pending w hwp)
            exact hsettled t hw.1
      · rw [hcp]
        rcases h.cover t ht hle with h1 | h1 | h1
        · exact Or.inl (hA h1)
        · by_cases hfold : t ∈ (p.cp.mark c).foldable
          · exact Or.inl (hsettled t hfold)
          · exact Or.inr (Or.inl ((hf.mem t).2 ⟨h1, hfold⟩))
        · exact Or.inr (Or.inr h1)

/-- Between two events no cursor is in hand. -/
theorem cover_idle (h : Tracks R A k p) (hi : p.idle) {t : ℤ} (ht : t ∈ R) (htk : t ≤ k) :
    t ∈ A ∨ t ∈ p.cp.pendingAcks := by
  rcases h.cover t ht htk with hacked | hpending | ⟨-, ⟨rest, hhand⟩ | hhand⟩
  · exact Or.inl hacked
  · exact Or.inr hpending
  · rw [(idle_iff.1 hi).1] at hhand
    cases hhand
  · rw [(idle_iff.1 hi).2] at hhand
    cases hhand

/-- The loop takes an event that comes next after `k`, or `k` again. -/
theorem recv (h : Tracks R A k p) (hi : p.idle) (hle : k ≤ k') (hnext : ∀ t ∈ R, k < t → t ≤ k' → t = k')
    (htime : timeUs event = some k') {calls : List Call} {b : Bool}
    (hc : ∀ c, .register c ∈ calls → c = k') (hr : Rest p.registered p.seen.length calls)
    (hhand : k' ∈ R → (∃ rest, calls = .register k' :: rest) ∨ b = true) :
    Tracks R A k' { p with seen := p.seen ++ [event], todo := calls, draining := b } := by
  have hw : Wired { p with seen := p.seen ++ [event], todo := calls, draining := b } := by
    have := h.wired.recv event hr
    exact ⟨this.rest, this.unsent, this.held, this.nodup, this.cursor, this.acked⟩
  refine ⟨hw, fun x hx => ?_, fun n hn e he => ?_, fun c hm => ?_,
    fun c hp => (h.pending c hp).trans hle, h.marked,
    fun v hv => (h.safe v hv).imp (fun hvk => hvk.trans hle) id, fun t ht htk => ?_⟩
  · obtain ⟨e, he, ht⟩ := h.registered x hx
    exact ⟨e, by rw [List.getElem?_append_left (List.getElem?_eq_some_iff.1 he).1]; exact he, ht⟩
  · exact h.acked n hn e (by rwa [List.getElem?_append_left (h.wired.acked n hn)] at he)
  · obtain rfl := hc c hm
    exact ⟨rfl, event, by simp [current], htime⟩
  · by_cases htk' : t ≤ k
    · exact (h.cover_idle hi ht htk').imp id Or.inl
    -- between the old cursor and the new one there is only the event itself
    · obtain rfl := hnext t ht (not_le.1 htk') htk
      exact Or.inr (Or.inr ⟨rfl, hhand ht⟩)

/-- The loop's iteration on an event that comes next after `k`. -/
theorem recv_step (h : Tracks R A k p) (hi : p.idle) (hle : k ≤ k')
    (hnext : ∀ t ∈ R, k < t → t ≤ k' → t = k') (htime : timeUs event = some k')
    (hacc : k' ∈ R → ∃ m, toModel H event = .ok m) (st : IngestSettings) (now : ℤ) :
    Tracks R A k' (p.step H st (.recv event now)) := by
  rw [step, if_pos hi]
  split
  · rename_i calls hc
    have hit := consumeCalls_ok hc
    refine h.recv hi hle hnext htime (fun c hm => ?_) (rest_iteration _ _ hit) fun hk => Or.inl ?_
    · exact Option.some.inj ((registers_own hit c hm).symm.trans htime)
    · obtain ⟨m, hm⟩ := hacc hk
      obtain ⟨rest, hrest⟩ := consumeCalls_accepted hm htime now
      rw [hc] at hrest
      exact ⟨_, Except.ok.inj hrest⟩
  · exact h.recv hi hle hnext htime (by simp [drainCalls]) rest_drain fun _ => Or.inr rfl

/-- The `break` on an event that comes next after `k`. -/
theorem drain (h : Tracks R A k p) (hi : p.idle) (hle : k ≤ k')
    (hnext : ∀ t ∈ R, k < t → t ≤ k' → t = k') : Tracks R A k' p.drain := by
  refine ⟨h.wired.quiet quiet_drain _ _, h.registered, h.acked, by simp [Proc.drain, drainCalls],
    fun c hp => (h.pending c hp).trans hle, h.marked,
    fun v hv => (h.safe v hv).imp (fun hvk => hvk.trans hle) id, fun t ht htk => ?_⟩
  by_cases htk' : t ≤ k
  · exact (h.cover_idle hi ht htk').imp id Or.inl
  · exact Or.inr (Or.inr ⟨hnext t ht (not_le.1 htk') htk, Or.inr rfl⟩)

/-- A call that returns or raises. -/
theorem call_step (h : Tracks R A k p) (ha : a = .call ∨ a = .raise) : Tracks R A k (p.step H st a) := by
  have hm := move_step H st p a
  have hw := wired_move h.wired hm
  generalize p.step H st a = p' at hm hw ⊢
  have gone : ∀ {c : Call} {rest : List Call}, p.todo = c :: rest →
      ∀ x, .register x ∈ rest → .register x ∈ p.todo :=
    fun ht x hx => by rw [ht]; exact List.mem_cons_of_mem _ hx
  have hand : ∀ {c : Call} {rest : List Call}, p.todo = c :: rest → (∀ x, c ≠ .register x) →
      ∀ t, p.InHand t → p.draining = true := by
    rintro c rest ht hne t (⟨rest', hh⟩ | hh)
    · rw [ht] at hh; exact absurd (List.cons.inj hh).1 (hne t)
    · exact hh
  cases hm with
  | stay => exact h
  | recv | recvFails | report => rcases ha with ha | ha <;> cases ha
  | drain =>
    exact h.frame hw rfl rfl rfl (by simp [Proc.drain, drainCalls]) (saved_refl _) fun _ _ => Or.inr rfl
  | abandon hd => exact h.frame hw rfl rfl rfl (by simp) (saved_refl _) fun _ _ => Or.inr hd
  | register ht => exact h.register ht
  | produce ht | produceDlq ht =>
    exact h.frame hw rfl rfl rfl (gone ht) (saved_refl _) fun t hh => Or.inr (hand ht (by simp) t hh)
  | quiet ht hq hs =>
    exact h.frame hw rfl rfl rfl (gone ht) hs fun t hh => Or.inr (hand ht (by rintro x rfl; cases hq) t hh)

end Tracks

theorem seen_step (ha : ∀ event now, a ≠ .recv event now) : (p.step H st a).seen = p.seen := by
  have hm := move_step H st p a
  generalize p.step H st a = p' at hm ⊢
  cases hm with
  | recv | recvFails => exact absurd rfl (ha _ _)
  | _ => rfl

theorem seen_yield (H : Host) (st : IngestSettings) (p : Proc)
    (ha : a = .stop ∨ ∃ now, a = .recv event now) :
    (p.step H st a).seen = p.seen ∨ (p.step H st a).seen = p.seen ++ [event] := by
  have hm := move_step H st p a
  generalize p.step H st a = p' at hm ⊢
  cases hm with
  | recv | recvFails =>
    rcases ha with ha | ⟨now, ha⟩
    · cases ha
    · cases ha; exact Or.inr rfl
  | _ => exact Or.inl rfl

theorem mem_ackedEvents {e : Val} (h : e ∈ p.ackedEvents) : e ∈ p.seen := by
  obtain ⟨n, -, hn⟩ := List.mem_filterMap.1 h
  exact List.mem_of_getElem? hn

end Proc

/-! ## The source -/

namespace SourceLog

variable {e e' : Val} {b : Bool} {pos : ℕ} {rest : List Val}

theorem time_lt {l₁ l₂ : List Val} (h : log.events = l₁ ++ e :: l₂) (ht : timeUs e = some t) :
    (∀ x ∈ l₁, ∀ t' ∈ timeUs x, t' < t) ∧ ∀ x ∈ l₂, ∀ t' ∈ timeUs x, t < t' := by
  have hs := log.sorted
  rw [h, List.pairwise_append] at hs
  exact ⟨fun x hx t' ht' => hs.2.2 x hx e List.mem_cons_self t' ht' t ht,
    fun x hx t' ht' => (List.pairwise_cons.1 hs.2.1).1 x hx t ht t' ht'⟩

/-- Events are told apart by `time_us`. -/
theorem time_inj (he : e ∈ log.events) (he' : e' ∈ log.events) (ht : timeUs e = some t)
    (ht' : timeUs e' = some t) :
    e = e' := by
  obtain ⟨l₁, l₂, hl⟩ := List.append_of_mem he
  obtain ⟨h1, h2⟩ := time_lt hl ht
  rw [hl] at he'
  rcases List.mem_append.1 he' with hm | hm
  · exact absurd (h1 e' hm t ht') (lt_irrefl t)
  rcases List.mem_cons.1 hm with rfl | hm
  · rfl
  · exact absurd (h2 e' hm t ht') (lt_irrefl t)

theorem mem_connect (he : e ∈ log.events) (ht : timeUs e = some t) (hk : k < t) :
    e ∈ log.connect (some k) b pos := by
  simp only [connect, List.mem_filter]
  exact ⟨he, by simp [ht, hk]⟩

/-- **The next event of a connection** is the next one after the cursor, or the one at it; what is
left is what a connection with its `time_us` delivers. -/
theorem connect_cons (h : log.connect (some k) b pos = e :: rest) :
    ∃ k', timeUs e = some k' ∧ e ∈ log.events ∧ k ≤ k' ∧ rest = log.connect (some k') false 0 ∧
      ∀ x ∈ log.events, ∀ t, timeUs x = some t → k < t → t ≤ k' → t = k' := by
  simp only [connect] at h
  obtain ⟨l₁, l₂, hl, hskip, hpass, hrest⟩ := List.filter_eq_cons_iff.1 h
  have hmem : e ∈ log.events := by rw [hl]; simp
  obtain ⟨k', hk'⟩ := Option.isSome_iff_exists.1 (log.timed e hmem)
  obtain ⟨h1, h2⟩ := time_lt hl hk'
  have hle : k ≤ k' := by
    simp only [hk', Option.any_some, Bool.or_eq_true, decide_eq_true_eq, Bool.and_eq_true] at hpass
    omega
  refine ⟨k', hk', hmem, hle, ?_, fun x hx t ht hkt htk => ?_⟩
  · -- past `e` both filters keep everything, up to `e` the second keeps nothing
    have hnone :
        l₁.filter (fun x => (timeUs x).any fun t => decide (k' < t) || false && decide (t = k')) = [] := by
      rw [List.filter_eq_nil_iff]
      intro x hx
      cases hx' : timeUs x with
      | none => simp
      | some t => have := h1 x hx t hx'; simp; omega
    rw [connect, hl, List.filter_append, hnone, List.filter_cons, ← hrest]
    simp only [hk', Option.any_some, lt_irrefl, decide_false, Bool.false_and, Bool.or_false,
      Bool.false_eq_true,
      if_false, List.nil_append]
    refine List.filter_congr fun x hx => ?_
    cases hx' : timeUs x with
    | none => rfl
    | some t =>
      have := h2 x hx t hx'
      have hk : k < t := by omega
      simp [this, hk]
  · rw [hl] at hx
    rcases List.mem_append.1 hx with hx | hx
    · have := hskip x hx
      simp [ht, hkt] at this
    rcases List.mem_cons.1 hx with rfl | hx
    · exact Option.some.inj (ht.symm.trans hk')
    · exact absurd (h2 x hx t ht) (not_lt.2 htk)

end SourceLog

/-! ## The service -/

namespace Service

variable {s s' : Service} {l l' : Life}

/-- The cursors above `k` of the events that `to_model` accepts. -/
def due (H : Host) (log : SourceLog) (k : ℤ) : Set ℤ :=
  {t | k < t ∧ ∃ e ∈ log.events, timeUs e = some t ∧ ∃ m, toModel H e = .ok m}

/-- The cursors of the acked events. -/
def ackedTimes (acked : List Val) : Set ℤ := {t | ∃ e ∈ acked, timeUs e = some t}

theorem ackedTimes_mono {l l' : List Val} (h : l ⊆ l') : ackedTimes l ⊆ ackedTimes l' :=
  fun _ ⟨e, he, ht⟩ => ⟨e, h he, ht⟩

/-- A life accounts for what its client has delivered, and its connection goes on from there. -/
def LifeOK (log : SourceLog) (R A : Set ℤ) (l : Life) : Prop :=
  (∃ k, l.latest = some k ∧ l.proc.Tracks R A k ∧
    ∀ rest, l.conn = some rest → ∃ b, rest = log.connect (some k) b 0) ∧
    ∀ e ∈ l.proc.seen, e ∈ log.events

/-- What every reachable state keeps; `R` are the cursors of the events not to be lost. -/
structure Sound (log : SourceLog) (R : Set ℤ) (s : Service) : Prop where
  received : ∀ e ∈ s.received, e ∈ log.events
  acked : ∀ e ∈ s.acked, e ∈ log.events
  stored : ∃ k, s.stored = some k ∧ Cleared R (ackedTimes s.acked) k
  life : ∀ l, s.life = some l → LifeOK log R (ackedTimes s.acked) l

theorem sound_init (k : ℤ) : (init (some k)).Sound log (due H log k) where
  received := by simp [init]
  acked := by simp [init]
  stored := ⟨k, rfl, fun _ ht hle => absurd ht.1 (not_lt.2 hle)⟩
  life := by simp [init]

namespace Sound

/-- A step that leaves the store and the history as they are. -/
theorem withLife (h : s.Sound log R) {o : Option Life}
    (hl : ∀ l, o = some l → LifeOK log R (ackedTimes s.acked) l) :
    Sound log R { s with life := o } := ⟨h.received, h.acked, h.stored, hl⟩

/-- The client yields an event: a step of the loop that takes what comes next keeps the life in order. -/
theorem yield (st : IngestSettings) (h : s.Sound log (due H log k)) (hlife : s.life = some l) {rest : List Val}
    (hrest : l.conn = some (event :: rest)) (hi : l.proc.idle) {act : Proc.Act}
    (hact : act = .stop ∨ ∃ now, act = .recv event now) : Sound log (due H log k) { s with
      received := s.received ++ [event]
      life := some ⟨(timeUs event).or l.latest, some rest, l.proc.step H st act⟩ } := by
  obtain ⟨⟨latest, hlatest, ht, hconn⟩, hseen⟩ := h.life l hlife
  obtain ⟨b, hb⟩ := hconn _ hrest
  obtain ⟨k', hk', hmem, hle, hrest', hnext⟩ := SourceLog.connect_cons hb.symm
  have hdue : ∀ t ∈ due H log k, latest < t → t ≤ k' → t = k' :=
    fun t ⟨_, e, he, hte, _⟩ => hnext e he t hte
  have hacc : k' ∈ due H log k → ∃ m, toModel H event = .ok m := by
    rintro ⟨-, e, he, hte, hm⟩
    obtain rfl := SourceLog.time_inj hmem he hk' hte
    exact hm
  refine ⟨fun e he => ?_, h.acked, h.stored, ?_⟩
  · rcases List.mem_append.1 he with he | he
    · exact h.received e he
    · obtain rfl := List.mem_singleton.1 he; exact hmem
  · rintro l' hl'
    obtain rfl := Option.some.inj hl'
    refine ⟨⟨k', by simp [hk'], ?_, fun rest'' hr => ⟨false, ?_⟩⟩, fun e he => ?_⟩
    · rcases hact with rfl | ⟨now, rfl⟩
      · rw [Proc.step, if_pos hi]; exact ht.drain hi hle hdue
      · exact ht.recv_step hi hle hdue hk' hacc st now
    · exact (Option.some.inj hr).symm.trans hrest'
    · rcases Proc.seen_yield H st l.proc hact with hs | hs
      · exact hseen e (hs ▸ he)
      · rw [hs] at he
        rcases List.mem_append.1 he with he | he
        · exact hseen e he
        · obtain rfl := List.mem_singleton.1 he; exact hmem

/-- A call that returns or raises, with or without a save. -/
theorem call (h : s.Sound log R) (hlife : s.life = some l) (ha : a = .call ∨ a = .raise) (b : Bool) :
    Sound log R { s with
      stored := if b then (l.proc.saves st a).or s.stored else s.stored
      life := some { l with proc := l.proc.step H st a } } := by
  obtain ⟨⟨latest, hlatest, ht, hconn⟩, hseen⟩ := h.life l hlife
  refine ⟨h.received, h.acked, ?_, ?_⟩
  · cases hv : l.proc.saves st a with
    | none => simpa [hv] using h.stored
    | some v =>
      cases b with
      -- the store keeps its old value when the save is not applied
      | false => exact h.stored
      | true => exact ⟨v, rfl, (ht.safe v (Proc.saves_eq hv).1).2⟩
  · rintro l' hl'
    obtain rfl := Option.some.inj hl'
    refine ⟨⟨latest, hlatest, ht.call_step ha, hconn⟩, ?_⟩
    rw [Proc.seen_step (by rintro event now rfl; rcases ha with ha | ha <;> cases ha)]
    exact hseen

/-- A delivery report. -/
theorem report (h : s.Sound log R) (hlife : s.life = some l) (i : ℕ) (success : Bool) :
    Sound log R { s with
      acked := s.acked ++ (l.proc.step H st (.report i success)).ackedEvents
      life := some { l with proc := l.proc.step H st (.report i success) } } := by
  obtain ⟨⟨latest, hlatest, ht, hconn⟩, hseen⟩ := h.life l hlife
  have hseen' : (l.proc.step H st (.report i success)).seen = l.proc.seen := Proc.seen_step (by simp)
  have hsub : s.acked ⊆ s.acked ++ (l.proc.step H st (.report i success)).ackedEvents :=
    List.subset_append_left _ _
  refine ⟨h.received, fun e he => ?_, ?_, ?_⟩
  · rcases List.mem_append.1 he with he | he
    · exact h.acked e he
    · exact hseen e (hseen' ▸ Proc.mem_ackedEvents he)
  · exact h.stored.imp fun v hv => hv.imp id fun hc => hc.mono (ackedTimes_mono hsub)
  · rintro l' hl'
    obtain rfl := Option.some.inj hl'
    refine ⟨⟨latest, hlatest, ?_, hconn⟩, by rw [hseen']; exact hseen⟩
    have hm := Proc.move_step H st l.proc (.report i success)
    generalize l.proc.step H st (.report i success) = p' at hm hsub ⊢
    cases hm with
    | stay => exact ht.mono (ackedTimes_mono hsub)
    | drain _ hh => rcases hh with ⟨hh, -⟩ | ⟨hh, -⟩ <;> cases hh
    | report _ _ hi =>
      refine ht.report hi (ackedTimes_mono hsub) ?_
      rintro rfl e he t hte
      refine ⟨e, List.mem_append_right _ (List.mem_filterMap.2 ⟨_, ?_, he⟩), hte⟩
      simp [Proc.deliver]

theorem step (st : IngestSettings) (h : s.Sound log (due H log k)) (a : Act) :
    (s.step H st log a).Sound log (due H log k) := by
  have hm := move_step H st log s a
  generalize s.step H st log a = s' at hm ⊢
  cases hm with
  | stay => exact h
  | @boot now hl =>
    refine h.withLife fun l hl => ?_
    obtain rfl := Option.some.inj hl
    obtain ⟨v, hv, hc⟩ := h.stored
    exact ⟨⟨v, hv, Proc.Tracks.init hc now, by simp⟩, by simp [Proc.init]⟩
  | crash => exact h.withLife (by simp)
  | @connect l b pos hlife =>
    obtain ⟨⟨latest, hlatest, ht, -⟩, hseen⟩ := h.life l hlife
    refine h.withLife fun l' hl => ?_
    obtain rfl := Option.some.inj hl
    refine ⟨⟨latest, hlatest, ht, fun rest hr => ⟨b, ?_⟩⟩, hseen⟩
    rw [← Option.some.inj hr, hlatest]; rfl
  | @drop l hlife =>
    obtain ⟨⟨latest, hlatest, ht, -⟩, hseen⟩ := h.life l hlife
    refine h.withLife fun l' hl => ?_
    obtain rfl := Option.some.inj hl
    exact ⟨⟨latest, hlatest, ht, by simp⟩, hseen⟩
  | recv hlife hconn hi => exact h.yield st hlife hconn hi (Or.inr ⟨_, rfl⟩)
  | stop hlife hconn hi => exact h.yield st hlife hconn hi (Or.inl rfl)
  | call hlife => exact h.call hlife (Or.inl rfl) true
  | @raise l applied hlife => exact h.call hlife (Or.inr rfl) applied
  | @report l i success hlife => exact h.report hlife i success

/-- An accepted event is acked, or every connection from the stored cursor delivers it. -/
theorem acked_or_replayed (h : s.Sound log (due H log k)) {m : Event} (he : event ∈ s.received)
    (hm : toModel H event = .ok m) (ht : timeUs event = some t) (hk : k < t) :
    event ∈ s.acked ∨ ∃ v, s.stored = some v ∧ v < t ∧ ∀ b pos, event ∈ log.connect (some v) b pos := by
  have hmem := h.received event he
  obtain ⟨v, hv, hc⟩ := h.stored
  -- at or below the stored cursor everything due is acked; above it a connection delivers
  by_cases htv : t ≤ v
  · obtain ⟨e, hacked, hte⟩ := hc t ⟨hk, event, hmem, ht, m, hm⟩ htv
    obtain rfl := SourceLog.time_inj (h.acked e hacked) hmem hte ht
    exact Or.inl hacked
  · exact Or.inr ⟨v, hv, not_le.1 htv, fun b pos => SourceLog.mem_connect hmem ht (not_le.1 htv)⟩

end Sound

end Service

/-- **Zero-gap resume.** Whatever the lives of the service do, an event that was received, is accepted
and lies above the cursor stored at first has been acked, or lies above the stored cursor, where every
connection from that cursor delivers it. -/
theorem resume_no_gap (k : ℤ) (as : List Service.Act) {m : Event}
    (he : event ∈ (Trace.run (Service.step H st log) (.init (some k)) as).received)
    (hm : toModel H event = .ok m) (ht : timeUs event = some t) (hk : k < t) :
    event ∈ (Trace.run (Service.step H st log) (.init (some k)) as).acked ∨
      ∃ v, (Trace.run (Service.step H st log) (.init (some k)) as).stored = some v ∧ v < t ∧
        ∀ b pos, event ∈ log.connect (some v) b pos := by
  have h := Trace.run_inv (fun s a (h : s.Sound log (Service.due H log k)) => h.step st a)
    (Service.sound_init k) as
  exact h.acked_or_replayed he hm ht hk

/-- Two posts. -/
def postLog : SourceLog where
  events := [postEvent 10 (.str "one"), postEvent 20 (.str "two")]
  timed := by decide
  sorted := by decide

/-- Both posts are produced, the first is acked and its cursor saved; then the process is gone. -/
def crashAfterSave : List Service.Act :=
  [.boot 0, .connect false 0, .recv 0, .call, .call, .call, .call, .call, .recv 1, .call, .call, .call,
    .report 0 true, .call, .call, .crash]

/-- The service on these posts, from cursor 5. -/
def postService (as : List Service.Act) : Service :=
  Trace.run (Service.step asciiHost everyAck postLog) (.init (some 5)) as

/-- The post in flight at the crash is delivered again. -/
theorem resume_no_gap_crash :
    postEvent 20 (.str "two") ∈ (postService crashAfterSave).acked ∨
      ∃ v, (postService crashAfterSave).stored = some v ∧ v < 20 ∧
        ∀ b pos, postEvent 20 (.str "two") ∈ postLog.connect (some v) b pos := by
  have hr : (postService crashAfterSave).received =
    [postEvent 10 (.str "one"), postEvent 20 (.str "two")] := rfl
  exact resume_no_gap 5 crashAfterSave (by rw [← postService, hr]; simp) rfl rfl (by decide)

example : (postService crashAfterSave).stored = some 10 := by decide

end BlueskyTrends
