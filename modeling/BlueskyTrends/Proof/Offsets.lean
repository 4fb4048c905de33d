import BlueskyTrends.Proof.ArchiverStep

/-!
# Committed offsets of a run

`offsets_forward_iff`: a run that returns normally commits offsets that never decrease, and ends
with each partition committed one past the last record consumed (so that a further run without new
data does nothing), exactly when at each of its flushes the last record consumed of each partition
in the batch is one that the batch holds.
-/

namespace BlueskyTrends

variable {Row : Type} [KafkaRow Row] {A : Archiver Row} {deserializer : Deserializer} {st : BronzeSettings}
  {log : KafkaLog} {c₀ position : ℤ → ℕ} {w w' : World Row} {r r' : Run Row}

namespace World

/-- Later commits of a partition are not lower than earlier ones. -/
def Forward (commits : List (ℤ × ℕ)) : Prop := commits.Pairwise fun x y => x.1 = y.1 → x.2 ≤ y.2

/-- Each partition is committed where its consumer stands, one past the last record consumed. -/
def CaughtUp (w : World Row) : Prop := ∀ p, w.committed p = w.position p

/-- No record is consumed, no row appended and no envelope sent between `w` and `w'`. -/
structure Untouched (w w' : World Row) : Prop where
  position : w'.position = w.position
  table : w'.table = w.table
  inflight : w'.inflight ⊆ w.inflight
  acked : w'.acked ⊆ w.acked ++ w.inflight

/-- A further run, on a log without a record that was not consumed yet, consumes no record, appends
no row and sends no envelope, whatever happens in it. -/
def Settled (A : Archiver Row) (deserializer : Deserializer) (st : BronzeSettings) (log : KafkaLog)
    (w : World Row) : Prop :=
  (∀ p o, w.position p ≤ o → log p o = none) → ∀ now now' bs,
    Untouched w (Trace.run (runStep A deserializer st log) (w.start st now now') bs)

/-- The flush finds the last record consumed of each partition of the batch among the rows held. -/
def LastHeld (w : World Row) : RunAct → Prop
  | .go _ _ => ∀ r ∈ w.run, r.ctl.flushes → ∀ x ∈ r.batch.offsetItems, w.position x.1 = x.2 + 1
  | _ => True

instance (w : World Row) : ∀ a, Decidable (w.LastHeld a)
  | .go _ _ => inferInstanceAs (Decidable (∀ r ∈ w.run, r.ctl.flushes → ∀ x ∈ r.batch.offsetItems,
      w.position x.1 = x.2 + 1))
  | .poll .. | .raise | .report .. => isTrue trivial

/-- The offsets of a run, with the record `hand` in hand: what is consumed of a partition without held
rows is committed, what is consumed of one with held rows ends with a held row or is committed. -/
structure Offsets (committed position : ℤ → ℕ) (commits : List (ℤ × ℕ)) (hand : Option (ℤ × ℕ))
    (b : Batch Row) :
    Prop where
  out : ∀ p, b.offsets.lookup p = none → committed p = position p ∨ ∃ o, hand = some (p, o)
  held : ∀ p m, b.offsets.lookup p = some m →
    position p = m + 1 ∨ (p, position p) ∈ commits ∨ ∃ o, hand = some (p, o)

/-- What a run keeps. -/
structure Tidy (A : Archiver Row) (deserializer : Deserializer) (log : KafkaLog) (c₀ : ℤ → ℕ)
    (w : World Row) :
    Prop where
  placed : w.Placed A deserializer log c₀
  forward : Forward w.commits
  bound : ∀ x ∈ w.commits, x.2 ≤ w.position x.1
  run : ∀ r, w.run = some r → r.ctl.failed = false →
    Offsets w.committed w.position w.commits r.ctl.inHand r.batch ∧ (r.ctl.returning → r.batch.rows = [])

theorem tidy_start (A : Archiver Row) (deserializer : Deserializer) (st : BronzeSettings) (log : KafkaLog)
    (w : World Row) (now now' : ℤ) :
    (w.start st now now').Tidy A deserializer log w.committed where
  placed := placed_start (fun _ => le_rfl) now now'
  forward := by simp [start, Forward]
  bound := by simp [start]
  run := fun x hx _ => by
    obtain rfl := Option.some.inj hx
    exact ⟨⟨fun p _ => Or.inl rfl, by simp [Run.init, Batch.init]⟩, fun _ => rfl⟩

namespace Offsets

variable {committed committed' : ℤ → ℕ} {commits commits' : List (ℤ × ℕ)} {b : Batch Row} {p : ℤ} {o : ℕ}

theorem reject (h : Offsets committed position commits none b) (p : ℤ) (o : ℕ) :
    Offsets committed (Function.update position p (o + 1)) commits (some (p, o)) b where
  out := fun q hq => by
    by_cases hqp : q = p
    · subst hqp; exact Or.inr ⟨o, rfl⟩
    · rw [Function.update_of_ne hqp]
      exact Or.inl ((h.out q hq).resolve_right (by simp))
  held := fun q m hq => by
    by_cases hqp : q = p
    · subst hqp; exact Or.inr (Or.inr ⟨o, rfl⟩)
    · rw [Function.update_of_ne hqp]
      exact (h.held q m hq).imp id fun hh => Or.inl (hh.resolve_right (by simp))

/-- A row added is the last record consumed. -/
theorem accept (h : Offsets committed position commits none b) {row : Row} (hp : partitionOf row = p)
    (ho : offsetOf row = o) (hle : ∀ m, b.offsets.lookup p = some m → m ≤ o) :
    Offsets committed (Function.update position p (o + 1)) commits none (b.add row) where
  out := fun q hq => by
    rw [Batch.add_lookup, hp] at hq
    by_cases hqp : q = p
    · rw [if_pos hqp] at hq; cases hq
    · rw [if_neg hqp] at hq
      rw [Function.update_of_ne hqp]
      exact h.out q hq
  held := fun q m hq => by
    rw [Batch.add_lookup, hp, ho] at hq
    by_cases hqp : q = p
    · subst hqp
      rw [if_pos rfl, Option.some.injEq] at hq
      have hmax : max ((b.offsets.lookup q).getD 0) o = o := by
        cases hl : b.offsets.lookup q with
        | none => exact max_eq_right (Nat.zero_le o)
        | some prev => exact max_eq_right (hle prev hl)
      rw [Function.update_self, ← hq, hmax]
      exact Or.inl rfl
    · rw [if_neg hqp] at hq
      rw [Function.update_of_ne hqp]
      exact h.held q m hq

/-- A flush whose rows end with the last records consumed commits all that was consumed. -/
theorem commit (h : Offsets committed position commits none b)
    (hlast : ∀ x ∈ b.offsetItems, position x.1 = x.2 + 1)
    (hc : ∀ q, committed' q = ((b.offsetItems.lookup q).map (· + 1)).getD (committed q)) :
    Offsets committed' position commits' none b.clear where
  out := fun q _ => by
    rw [hc, Batch.lookup_offsetItems]
    cases hq : b.offsets.lookup q with
    | none => exact h.out q hq
    | some m => exact Or.inl (hlast (q, m) (Batch.mem_offsetItems.2 hq)).symm
  held := fun q m hq => by simp at hq

/-- The commit past a record. -/
theorem past (h : Offsets committed position commits (some (p, o)) b) (hpos : position p = o + 1)
    (hc : ∀ q, committed' q = if q = p then o + 1 else committed q) :
    Offsets committed' position (commits ++ [(p, o + 1)]) none b where
  out := fun q hq => by
    rw [hc]
    by_cases hqp : q = p
    · subst hqp; rw [if_pos rfl, hpos]; exact Or.inl rfl
    · rw [if_neg hqp]
      refine Or.inl ((h.out q hq).resolve_right ?_)
      rintro ⟨_, hh⟩
      exact hqp (Prod.mk.inj (Option.some.inj hh)).1.symm
  held := fun q m hq => by
    by_cases hqp : q = p
    · subst hqp; rw [hpos]; exact Or.inr (Or.inl (by simp))
    · rcases h.held q m hq with hh | hh | ⟨_, hh⟩
      · exact Or.inl hh
      · exact Or.inr (Or.inl (List.mem_append_left _ hh))
      · exact absurd (Prod.mk.inj (Option.some.inj hh)).1.symm hqp

end Offsets

/-- Commits at the consumer's position go forward and stay below it. -/
theorem Forward.append {commits items : List (ℤ × ℕ)} (h : Forward commits)
    (hbound : ∀ x ∈ commits, x.2 ≤ position x.1) (hat : ∀ x ∈ items, x.2 = position x.1) :
    Forward (commits ++ items) ∧ ∀ x ∈ commits ++ items, x.2 ≤ position x.1 := by
  refine ⟨List.pairwise_append.2 ⟨h, ?_, fun x hx y hy hxy => ?_⟩, fun x hx => ?_⟩
  · refine List.pairwise_of_forall_mem_list fun x hx y hy hxy => ?_
    rw [hat x hx, hat y hy, hxy]
  · rw [hat y hy, ← hxy]; exact hbound x hx
  · rcases List.mem_append.1 hx with hx | hx
    · exact hbound x hx
    · exact (hat x hx).le

theorem bound_update {p : ℤ} {o : ℕ} (hle : position p ≤ o) {commits : List (ℤ × ℕ)}
    (hbound : ∀ x ∈ commits, x.2 ≤ position x.1) :
    ∀ x ∈ commits, x.2 ≤ Function.update position p (o + 1) x.1 :=
  fun x hx => (hbound x hx).trans (le_update hle x.1)

/-- **A step keeps a run tidy**, if its flushes find the last record of each partition held. -/
theorem tidy_move (h : w.Tidy A deserializer log c₀) {a : RunAct} (hok : w.LastHeld a)
    (hm : Move A deserializer log w a w') : w'.Tidy A deserializer log c₀ := by
  have hplaced := placed_move h.placed hm
  cases hm with
  | stay => exact h
  | @quiet _ r r' hr hb hc hbusy hret =>
    refine ⟨hplaced, h.forward, h.bound, fun x hx hf => ?_⟩
    obtain rfl := Option.some.inj hx
    have hcalm : r.ctl.calm = true := by
      by_contra hno
      rw [hbusy (Or.inl (by simpa using hno))] at hf; cases hf
    have hf' : r.ctl.failed = false := by
      by_contra hno
      rw [hbusy (Or.inr (by simpa using hno))] at hf; cases hf
    obtain ⟨hk, hk'⟩ := h.run r hr hf'
    rw [Ctl.inHand_calm hcalm] at hk
    rw [Ctl.inHand_calm hc, hb]
    exact ⟨hk, fun hrr => (hret hrr).elim hk' id⟩
  | @reject _ r r' p o value d hr ht hd hv hb hc =>
    refine ⟨hplaced, h.forward, bound_update hd.le h.bound, fun x hx _ => ?_⟩
    obtain rfl := Option.some.inj hx
    obtain ⟨hk, -⟩ := h.run r hr (by rw [ht]; rfl)
    rw [ht] at hk
    rw [hc, hb]
    exact ⟨hk.reject p o, by simp [Ctl.returning]⟩
  | @accept _ r r' p o value row hr ht hd hv hp ho hb hc =>
    refine ⟨hplaced, h.forward, bound_update hd.le h.bound, fun x hx _ => ?_⟩
    obtain rfl := Option.some.inj hx
    obtain ⟨hk, -⟩ := h.run r hr (by rw [ht]; rfl)
    rw [ht] at hk
    have hk := hk.accept hp ho fun m hm => ((h.placed.run r hr).lookup hm).2.le.trans hd.le
    rw [hb]
    rcases hc with hc | hc <;> rw [hc] <;> exact ⟨hk, by simp [Ctl.returning]⟩
  | @append _ _ r next hr ht =>
    refine ⟨hplaced, h.forward, h.bound, fun x hx _ => ?_⟩
    obtain rfl := Option.some.inj hx
    obtain ⟨hk, -⟩ := h.run r hr (by rw [ht]; rfl)
    rw [ht] at hk
    exact ⟨hk, by simp [Ctl.returning]⟩
  | @commit _ _ r r' next _ hr ht hb hc hw =>
    obtain ⟨hk, -⟩ := h.run r hr (by rw [ht]; rfl)
    rw [ht] at hk
    -- the batch commits exactly the consumer's positions
    have hlast := hok r hr (by rw [ht]; rfl)
    have hat : ∀ x ∈ r.batch.offsetItems.map fun x => (x.1, x.2 + 1), x.2 = w.position x.1 := by
      intro x hx
      obtain ⟨y, hy, rfl⟩ := List.mem_map.1 hx
      exact (hlast y hy).symm
    obtain ⟨hforward, hbound⟩ := h.forward.append h.bound hat
    refine ⟨hplaced, by rw [hw.commits]; exact hforward, by rw [hw.commits, hw.position]; exact hbound,
      fun x hx _ => ?_⟩
    obtain rfl := Option.some.inj (hw.run.symm.trans hx)
    rw [hc, hb, Ctl.inHand_calm next.calm, hw.position]
    exact ⟨hk.commit hlast hw.committed, fun _ => rfl⟩
  | @send _ _ r r' d p o e hr ht hb hc =>
    refine ⟨hplaced, h.forward, h.bound, fun x hx _ => ?_⟩
    obtain rfl := Option.some.inj hx
    obtain ⟨hk, -⟩ := h.run r hr (by rw [ht]; rfl)
    rw [ht] at hk
    rw [hc, hb]
    exact ⟨hk, by simp [Ctl.returning]⟩
  | @commitPast _ _ r r' p o _ hr ht hb hc hw =>
    obtain ⟨hk, -⟩ := h.run r hr (by rw [ht]; rfl)
    obtain ⟨-, hpos, -⟩ := (h.placed.run r hr).inHand p o (by rw [ht]; rfl)
    rw [ht] at hk
    -- the record in hand is the last one consumed of its partition
    have hat : ∀ x ∈ [(p, o)].map fun x => (x.1, x.2 + 1), x.2 = w.position x.1 := by simp [hpos]
    obtain ⟨hforward, hbound⟩ := h.forward.append h.bound hat
    refine ⟨hplaced, by rw [hw.commits]; exact hforward, by rw [hw.commits, hw.position]; exact hbound,
      fun x hx _ => ?_⟩
    obtain rfl := Option.some.inj (hw.run.symm.trans hx)
    rw [hc, hb, hw.position, hw.commits]
    exact ⟨hk.past hpos hw.past, by simp [Ctl.returning]⟩
  | report => exact ⟨hplaced, h.forward, h.bound, h.run⟩

/-- **A flush that does not hold the last record consumed commits backwards.** -/
theorem backward_of_not_lastHeld (h : w.Tidy A deserializer log c₀) {a : RunAct} (hok : ¬ w.LastHeld a) :
    ¬ Forward (w.runStep A deserializer st log a).commits := by
  intro hfwd
  apply hok
  cases a with
  | go now assignment =>
    rintro r hr hfl ⟨p, m⟩ hx
    obtain ⟨next, ht⟩ : ∃ next, r.ctl = .commit next := by
      cases hctl : r.ctl <;> rw [hctl] at hfl <;> cases hfl
      exact ⟨_, rfl⟩
    have hw := runStep_commit A deserializer st log hr ht now assignment
    rw [hw, Forward, List.pairwise_append] at hfwd
    obtain ⟨hk, -⟩ := h.run r hr (by rw [ht]; rfl)
    have hlook := Batch.mem_offsetItems.1 hx
    by_contra hne
    -- the last record consumed is held, or its offset is committed already
    rcases hk.held p m hlook with hh | hh | ⟨o, hh⟩
    · exact hne hh
    · have hle := hfwd.2.2 _ hh (p, m + 1) (List.mem_map.2 ⟨_, hx, rfl⟩) rfl
      have hlt := ((h.placed.run r hr).lookup hlook).2
      exact hne (le_antisymm hle hlt)
    · rw [ht] at hh; cases hh
  | _ => trivial

theorem commits_prefix {a : RunAct} (hm : Move A deserializer log w a w') : w.commits <+: w'.commits := by
  cases hm with
  | commit _ _ _ _ hw => rw [hw.commits]; exact List.prefix_append _ _
  | commitPast _ _ _ _ hw => rw [hw.commits]; exact List.prefix_append _ _
  | _ => exact List.prefix_refl _

theorem caughtUp_of_tidy (h : w.Tidy A deserializer log c₀) (hr : w.run = some r)
    (ht : r.ctl = .done true) :
    w.CaughtUp := by
  obtain ⟨hk, hrows⟩ := h.run r hr (by rw [ht]; rfl)
  rw [ht] at hk hrows
  intro p
  exact (hk.out p (Batch.lookup_empty (hrows rfl) p)).resolve_right (by simp [Ctl.inHand])

/-! ## A further run -/

/-- A run that found nothing to consume. -/
structure Dormant (w w' : World Row) : Prop where
  untouched : Untouched w w'
  run : ∀ r, w'.run = some r → r.batch.rows = [] ∧ r.ctl.resting

theorem resting_of_calm {c : Ctl} (h : c.calm = true) (happ : ∀ next, c ≠ .append next) :
    c.resting = true := by
  cases c with
  | append next => exact absurd rfl (happ next)
  | commit | send | commitPast => cases h
  | _ => rfl

theorem dormant_move {w₀ : World Row} (hno : ∀ p o, w₀.position p ≤ o → log p o = none)
    (h : Dormant w₀ w) {a : RunAct} (hm : Move A deserializer log w a w') : Dormant w₀ w' := by
  have hnone : ∀ {p o value}, ¬ Delivers log w p o value := by
    intro p o value hd
    have hrec := hd.record
    rw [hno p o (h.untouched.position ▸ hd.le)] at hrec; cases hrec
  cases hm with
  | stay => exact h
  | @quiet _ r r' hr hb hc _ _ happ =>
    obtain ⟨hpos, htable, hinflight, hacked⟩ := h.untouched
    refine ⟨⟨hpos, htable, hinflight, hacked⟩, fun x hx => ?_⟩
    obtain rfl := Option.some.inj hx
    obtain ⟨hrows, -⟩ := h.run r hr
    exact ⟨hb ▸ hrows, resting_of_calm hc fun next hn => happ next hn hrows⟩
  | reject _ _ hd => exact absurd hd hnone
  | accept _ _ hd => exact absurd hd hnone
  | append hr ht | commit hr ht | send hr ht | commitPast hr ht =>
    have := (h.run _ hr).2
    rw [ht] at this; cases this
  | report _ hi hk =>
    obtain ⟨hpos, htable, hinflight, hacked⟩ := h.untouched
    refine ⟨⟨hpos, htable, fun e he => hinflight (hi he), fun e he => ?_⟩, h.run⟩
    rcases List.mem_append.1 (hk he) with he | he
    · exact hacked he
    · exact List.mem_append_right _ (hinflight he)

theorem settled_of_caughtUp (h : w.CaughtUp) : w.Settled A deserializer st log := by
  intro hno now now' bs
  have h0 : Dormant w (w.start st now now') := by
    refine ⟨⟨funext h, rfl, List.Subset.refl _, List.subset_append_left _ _⟩, fun x hx => ?_⟩
    obtain rfl := Option.some.inj hx
    exact ⟨rfl, rfl⟩
  exact (Trace.run_inv (fun w' a hd => dormant_move hno hd (move_runStep A deserializer st log w' a))
    h0 bs).untouched

end World

/-- **Offsets go forward, exactly.** A run that returns normally commits offsets that never decrease, ends
with every partition committed one past the last record consumed, and leaves nothing for a further run
without new data, exactly when each of its flushes holds the last record consumed of each partition in
the batch. -/
theorem offsets_forward_iff (w : World Row) (now now' : ℤ) (as : List World.RunAct)
    (hr : (Trace.run (World.runStep A deserializer st log) (w.start st now now') as).run = some r)
    (ht : r.ctl = .done true) :
    (World.Forward (Trace.run (World.runStep A deserializer st log) (w.start st now now') as).commits ∧
      (Trace.run (World.runStep A deserializer st log) (w.start st now now') as).CaughtUp ∧
      (Trace.run (World.runStep A deserializer st log) (w.start st now now') as).Settled A deserializer
        st log) ↔
      Trace.Along (World.runStep A deserializer st log) World.LastHeld (w.start st now now') as := by
  have hstep : ∀ s a, World.LastHeld s a → World.Tidy A deserializer log w.committed s →
      World.Tidy A deserializer log w.committed (s.runStep A deserializer st log a) :=
    fun s a hok h => World.tidy_move h hok (World.move_runStep A deserializer st log s a)
  have h0 := World.tidy_start A deserializer st log w now now'
  constructor
  · rintro ⟨hfwd, -, -⟩
    refine Trace.along_of_persist (B := fun s => ¬ World.Forward s.commits) hstep
      (fun s a h hok => World.backward_of_not_lastHeld h hok) (fun s a hbad hf => ?_) h0 (not_not.2 hfwd)
    exact hbad (hf.sublist (World.commits_prefix (World.move_runStep A deserializer st log s a)).sublist)
  · intro hok
    have h := Trace.run_inv_along hstep h0 hok
    have hc := World.caughtUp_of_tidy h hr ht
    exact ⟨h.forward, hc, World.settled_of_caughtUp hc⟩

/-- A run of the posts archiver from offset 0, on a topic with the given values. -/
def postsRun (values : List Bytes) (as : List World.RunAct) : World BronzeRow :=
  Trace.run
    (World.runStep (postsBronze asciiHost defaultSettings) postDeserializer defaultSettings (topicOf values))
    ((World.init [] fun _ => 0).start defaultSettings 0 0) as

/-- An empty poll at the flush bound, the flush, and the stop after fifteen idle seconds. -/
def drainAndStop : List World.RunAct :=
  [.poll none 5000000000 0 0, .go 5000000000 [0], .go 5000000000 [0],
    .go 16000000000 [0], .go 16000000000 [0]]

theorem offsets_forward_one :
    World.Forward (postsRun [postBytes] (.poll (messageAt 0 postBytes) 0 1 0 :: drainAndStop)).commits ∧
      (postsRun [postBytes] (.poll (messageAt 0 postBytes) 0 1 0 :: drainAndStop)).CaughtUp ∧
      (postsRun [postBytes] (.poll (messageAt 0 postBytes) 0 1 0 :: drainAndStop)).Settled
        (postsBronze asciiHost defaultSettings) postDeserializer defaultSettings (topicOf [postBytes]) := by
  have hdone : (postsRun [postBytes] (.poll (messageAt 0 postBytes) 0 1 0 :: drainAndStop)).run.map Run.ctl =
      some (.done true) := by decide
  obtain ⟨r, hr, ht⟩ := Option.map_eq_some_iff.1 hdone
  exact (offsets_forward_iff (.init [] fun _ => 0) 0 0 _ hr ht).2 (by decide)

/-- A post, then a value without a schema id: offset 2 is committed past the second while the first is
held, and the flush of the first commits offset 1. -/
def postThenReject : List World.RunAct :=
  [.poll (messageAt 0 postBytes) 0 1 0, .poll (messageAt 1 []) 0 2 0, .go 0 [0], .go 0 [0]] ++ drainAndStop

/-- **The offsets go back**, in a run that returns normally. -/
theorem offsets_go_back :
    (postsRun [postBytes, []] postThenReject).run.map Run.ctl = some (.done true) ∧
      ¬ (World.Forward (postsRun [postBytes, []] postThenReject).commits ∧
        (postsRun [postBytes, []] postThenReject).CaughtUp ∧
        (postsRun [postBytes, []] postThenReject).Settled (postsBronze asciiHost defaultSettings)
          postDeserializer defaultSettings (topicOf [postBytes, []])) := by
  refine ⟨by decide, fun h => ?_⟩
  have hcommits : (postsRun [postBytes, []] postThenReject).commits = [(0, 2), (0, 1)] := by decide
  have hfwd := h.1
  rw [hcommits] at hfwd
  exact absurd (hfwd : World.Forward [(0, 2), (0, 1)]) (by simp [World.Forward])

end BlueskyTrends
