import BlueskyTrends.Ingest.Metrics

/-!
# The counters count what is sent

Whatever calls return or raise and whenever reports come, an event is counted at most once, under
its collection where it is produced and under a reason where it is dead-lettered, and no other event
is. All that the counters can miss is the one event whose iteration an exception cut off.

* `buckets_eq`: how the calls of an iteration count its event.
* `metrics_conserved`: **the counters count what is sent**, in every state of every run.
-/

namespace BlueskyTrends

/-- What an event counts as. -/
inductive Bucket where
  | event (collection : String)
  | dlq (reason : String)
  deriving DecidableEq

def Call.bucket : Call → Option Bucket
  | .recordEvent collection => some (.event collection)
  | .recordDlq reason => some (.dlq reason)
  | _ => none

/-- An event counts under its collection where `to_model` accepts it and it has a cursor, and as a
dead letter where its fields cannot be read or it has no cursor. -/
def bucketOf (H : Host) (event : Val) : Option Bucket :=
  match toModel H event with
  | .ok _ => if (timeUs event).isSome then some (.event (H.str (collectionIn event))) else some (.dlq "missing_time_us")
  | .error exc =>
    if firstHandler consumeHandlers exc = some .deadLetter then some (.dlq (H.str (collectionIn event))) else none

/-- The buckets of calls. -/
def buckets (calls : List Call) : List Bucket := calls.filterMap Call.bucket

variable {H : Host} {st : IngestSettings} {event : Val} {calls : List Call} {now : ℤ}

theorem toModel_dict (h : event.isDict = false) : ∃ msg, toModel H event = .error (.attributeError msg) := by
  cases event with
  | dict items => cases h
  | _ => exact ⟨_, rfl⟩

/-- **How an iteration counts its event.** -/
theorem buckets_eq (h : consumeCalls H event now = .ok calls) : buckets calls = (bucketOf H event).toList := by
  have hd : event.isDict = true := by
    by_contra hd
    have hroute : ∃ e, route H event = .error e := by
      cases event with
      | dict items => exact absurd rfl hd
      | _ => exact ⟨_, rfl⟩
    obtain ⟨e, he⟩ := hroute
    unfold consumeCalls at h
    rw [he] at h
    cases h
  unfold consumeCalls at h
  rw [route_dict hd] at h
  unfold bucketOf
  cases hm : toModel H event with
  | ok m =>
    rw [hm] at h
    cases ht : timeUs event with
    | none =>
      rw [ht] at h
      obtain rfl := Except.ok.inj h
      rfl
    | some t =>
      rw [ht] at h
      obtain rfl := Except.ok.inj h
      rfl
  | error exc =>
    rw [hm] at h
    simp only at h ⊢
    cases hh : firstHandler consumeHandlers exc with
    | none =>
      rw [hh] at h
      cases h
    | some handler =>
      rw [hh] at h
      cases handler with
      | skip =>
        obtain rfl := Except.ok.inj h
        rfl
      | deadLetter =>
        obtain rfl := Except.ok.inj h
        rfl

/-- An event whose iteration raises before its first call counts for nothing. -/
theorem bucketOf_error {e : PyExc} (h : consumeCalls H event now = .error e) : bucketOf H event = none := by
  unfold consumeCalls at h
  unfold bucketOf
  by_cases hd : event.isDict = true
  · rw [route_dict hd] at h
    cases hm : toModel H event with
    | ok m =>
      rw [hm] at h
      cases ht : timeUs event with
      | none => rw [ht] at h; cases h
      | some t => rw [ht] at h; cases h
    | error exc =>
      rw [hm] at h
      simp only at h ⊢
      cases hh : firstHandler consumeHandlers exc with
      | none => rfl
      | some handler =>
        rw [hh] at h
        cases handler with
        | skip => cases h
        | deadLetter => cases h
  · obtain ⟨msg, hm⟩ := toModel_dict (H := H) (by simpa using hd)
    rw [hm]
    rfl

/-! ## Counting -/

namespace Metrics

/-- What is counted in a bucket. -/
def count (m : Metrics) : Bucket → ℕ
  | .event collection => m.events.get collection
  | .dlq reason => m.dlq.get reason

def size (m : Metrics) : ℕ := m.events.total + m.dlq.total

theorem count_recordEvent (m : Metrics) (collection : String) (wall : ℚ) (b : Bucket) :
    (m.recordEvent collection wall).count b = m.count b + [Bucket.event collection].count b := by
  cases b with
  | event k =>
    have hone : [Bucket.event collection].count (.event k) = if k = collection then 1 else 0 := by
      by_cases h : k = collection
      · rw [h, List.count_singleton_self, if_pos rfl]
      · rw [if_neg h]
        exact List.count_eq_zero_of_not_mem (by simpa using h)
    rw [hone]
    exact Counter.get_increment m.events collection k
  | dlq k =>
    have hnone : [Bucket.event collection].count (.dlq k) = 0 := List.count_eq_zero_of_not_mem (by simp)
    rw [hnone]
    rfl

theorem count_recordDlq (m : Metrics) (reason : String) (b : Bucket) :
    (m.recordDlq reason).count b = m.count b + [Bucket.dlq reason].count b := by
  cases b with
  | event k =>
    have hnone : [Bucket.dlq reason].count (.event k) = 0 := List.count_eq_zero_of_not_mem (by simp)
    rw [hnone]
    rfl
  | dlq k =>
    have hone : [Bucket.dlq reason].count (.dlq k) = if k = reason then 1 else 0 := by
      by_cases h : k = reason
      · rw [h, List.count_singleton_self, if_pos rfl]
      · rw [if_neg h]
        exact List.count_eq_zero_of_not_mem (by simpa using h)
    rw [hone]
    exact Counter.get_increment m.dlq reason k

end Metrics

namespace Metered

variable {s : Metered} {interval : ℤ}

/-- The buckets of the events received. -/
def due (H : Host) (s : Metered) : List Bucket := s.proc.seen.filterMap (bucketOf H)

/-- What holds in every state. The counters and the calls still to be made, or one event that was
cut off, count the events received. -/
structure Conserved (H : Host) (s : Metered) : Prop where
  drained : s.proc.draining = true → buckets s.proc.todo = []
  count : ∃ rest : List Bucket, rest.length ≤ 1 ∧ (s.proc.draining = false → rest = buckets s.proc.todo) ∧
    (∀ b, s.metrics.count b + rest.count b = (s.due H).count b) ∧
    s.metrics.size + rest.length = (s.due H).length
  lines : (s.lines.map StatsLine.eventsTotal).Pairwise (· ≤ ·) ∧ (s.lines.map StatsLine.dlqTotal).Pairwise (· ≤ ·) ∧
    ∀ line ∈ s.lines, line.eventsTotal ≤ s.metrics.events.total ∧ line.dlqTotal ≤ s.metrics.dlq.total

theorem conserved_init (now now' : ℤ) : (init now now').Conserved H where
  drained := fun h => by cases h
  count := by
    refine ⟨[], Nat.zero_le _, fun _ => rfl, fun b => ?_, rfl⟩
    cases b <;> rfl
  lines := ⟨List.Pairwise.nil, List.Pairwise.nil, fun _ h => by cases h⟩

/-- A logged line shows the counters as they are. -/
theorem Conserved.log (h : s.Conserved H) (wall : ℚ) : (s.log wall).Conserved H where
  drained := h.drained
  count := h.count
  lines := by
    obtain ⟨hevents, hdlq, hle⟩ := h.lines
    refine ⟨?_, ?_, ?_⟩
    · rw [Metered.log, List.map_append, List.pairwise_append]
      refine ⟨hevents, List.pairwise_singleton _ _, fun a ha b hb => ?_⟩
      obtain ⟨line, hline, rfl⟩ := List.mem_map.1 ha
      rw [List.map_singleton, List.mem_singleton] at hb
      rw [hb]
      exact (hle line hline).1
    · rw [Metered.log, List.map_append, List.pairwise_append]
      refine ⟨hdlq, List.pairwise_singleton _ _, fun a ha b hb => ?_⟩
      obtain ⟨line, hline, rfl⟩ := List.mem_map.1 ha
      rw [List.map_singleton, List.mem_singleton] at hb
      rw [hb]
      exact (hle line hline).2
    · intro line hline
      rcases List.mem_append.1 hline with hline | hline
      · exact hle line hline
      · rw [List.mem_singleton.1 hline]
        exact ⟨le_rfl, le_rfl⟩

/-- A step of the process that receives and counts nothing. -/
theorem Conserved.frame (h : s.Conserved H) {p : Proc} (hseen : p.seen = s.proc.seen)
    (htodo : p.draining = false → s.proc.draining = false ∧ buckets p.todo = buckets s.proc.todo)
    (hdrained : p.draining = true → buckets p.todo = []) : Conserved H { s with proc := p } where
  drained := hdrained
  count := by
    obtain ⟨rest, hlen, hrest, hcount, hsize⟩ := h.count
    have hdue : due H { s with proc := p } = s.due H := by
      unfold due
      rw [hseen]
    refine ⟨rest, hlen, fun hd => ?_, fun b => ?_, ?_⟩
    · obtain ⟨hd', hb⟩ := htodo hd
      exact (hrest hd').trans hb.symm
    · rw [hdue]
      exact hcount b
    · rw [hdue]
      exact hsize
  lines := h.lines

/-- A returning call counts its bucket. -/
theorem Conserved.counts (h : s.Conserved H) {c : Call} {rest : List Call} (hp : s.proc.todo = c :: rest) (wall : ℚ)
    {p : Proc} (htodo : p.todo = rest) (hseen : p.seen = s.proc.seen) (hdraining : p.draining = s.proc.draining) :
    Conserved H { s.counts interval wall c with proc := p } := by
  have hdrained : p.draining = true → buckets p.todo = [] := by
    intro hd
    have hnil := h.drained (hdraining ▸ hd)
    rw [hp, buckets, List.filterMap_cons] at hnil
    rw [htodo]
    cases hc : c.bucket with
    | none => rwa [hc] at hnil
    | some b =>
      rw [hc] at hnil
      cases hnil
  have hquiet : ∀ s' : Metered, s'.Conserved H → s'.proc = s.proc → c.bucket = none →
      Conserved H { s' with proc := p } := by
    intro s' hs' hproc hc
    refine hs'.frame (by rw [hseen, hproc]) (fun hd => ?_) hdrained
    rw [hproc, ← hdraining, htodo, hp, buckets, buckets, List.filterMap_cons, hc]
    exact ⟨hd, rfl⟩
  have hcounted : ∀ m : Metrics, ∀ b, c.bucket = some b → (∀ b', m.count b' = s.metrics.count b' + [b].count b') →
      m.size = s.metrics.size + 1 → s.metrics.events.total ≤ m.events.total → s.metrics.dlq.total ≤ m.dlq.total →
      Conserved H { s with proc := p, metrics := m } := by
    intro m b hb hm hsize hevents hdlq
    have hd : s.proc.draining = false := by
      by_contra hd
      have hnil := h.drained (by simpa using hd)
      rw [hp, buckets, List.filterMap_cons, hb] at hnil
      cases hnil
    obtain ⟨pending, hlen, hrest, hcount, hall⟩ := h.count
    have hpending : pending = b :: buckets rest := by
      rw [hrest hd, hp, buckets, List.filterMap_cons, hb]
      rfl
    have hdue : due H { s with proc := p, metrics := m } = s.due H := by
      unfold due
      rw [hseen]
    rw [hpending, List.length_cons] at hlen hall
    refine ⟨hdrained, ⟨buckets rest, by omega, fun _ => by rw [htodo], fun b' => ?_, ?_⟩, ?_⟩
    · have h1 := hcount b'
      have h2 : (b :: buckets rest).count b' = [b].count b' + (buckets rest).count b' :=
        @List.count_append _ _ b' [b] (buckets rest)
      rw [hpending, h2] at h1
      rw [hdue, hm, ← h1]
      omega
    · rw [hdue, ← hall]
      change m.size + _ = _
      omega
    · refine ⟨h.lines.1, h.lines.2.1, fun line hline => ?_⟩
      obtain ⟨h1, h2⟩ := h.lines.2.2 line hline
      exact ⟨h1.trans hevents, h2.trans hdlq⟩
  cases c with
  | recordEvent collection =>
    have htotal := Counter.total_increment s.metrics.events collection
    refine hcounted (s.metrics.recordEvent collection wall) (.event collection) rfl
      (fun b => Metrics.count_recordEvent _ _ _ b) ?_ ?_ le_rfl
    · unfold Metrics.size Metrics.recordEvent
      simp only
      omega
    · unfold Metrics.recordEvent
      simp only
      omega
  | recordDlq reason =>
    have htotal := Counter.total_increment s.metrics.dlq reason
    refine hcounted (s.metrics.recordDlq reason) (.dlq reason) rfl (fun b => Metrics.count_recordDlq _ _ b) ?_ le_rfl ?_
    · unfold Metrics.size Metrics.recordDlq
      simp only
      omega
    · unfold Metrics.recordDlq
      simp only
      omega
  | maybeSave now =>
    have hcounts : s.counts interval wall (.maybeSave now) =
        if interval ≤ now - s.lastStats then { s.log wall with lastStats := now } else s := rfl
    rw [hcounts]
    split
    · have hlog := h.log wall
      exact hquiet { s.log wall with lastStats := now } ⟨hlog.drained, hlog.count, hlog.lines⟩ rfl rfl
    · exact hquiet s h rfl rfl
  | finalSave => exact hquiet (s.log wall) (h.log wall) rfl rfl
  | register | produce | produceDlq | poll | flush => exact hquiet s h rfl rfl

/-- **A step keeps the count.** -/
theorem conserved_step (h : s.Conserved H) (a : Proc.Act × ℚ) : (s.step H st interval a).Conserved H := by
  obtain ⟨act, wall⟩ := a
  cases act with
  | recv event now =>
    change Conserved H { s with proc := s.proc.step H st (.recv event now) }
    by_cases hi : s.proc.idle
    · obtain ⟨hnil, hd⟩ := Proc.idle_iff.1 hi
      obtain ⟨rest, hlen, hrest, hcount, hsize⟩ := h.count
      have hnone : rest = [] := by
        rw [hrest hd, hnil]
        rfl
      subst hnone
      unfold Proc.step
      simp only [hi, if_true]
      split
      · -- the calls of the iteration count the event
        rename_i calls hcalls
        have hbuckets := buckets_eq hcalls
        have hdue : due H { s with proc := { s.proc with seen := s.proc.seen ++ [event], todo := calls } } =
            s.due H ++ buckets calls := by
          unfold due
          rw [List.filterMap_append, hbuckets]
          cases hb : bucketOf H event <;> simp [hb]
        refine ⟨fun hd' => ?_, ⟨buckets calls, ?_, fun _ => rfl, fun b => ?_, ?_⟩, h.lines⟩
        · rw [hd] at hd'
          cases hd'
        · rw [hbuckets]
          cases bucketOf H event <;> simp
        · rw [hdue, List.count_append, ← hcount b]
          rfl
        · rw [hdue, List.length_append, ← hsize]
          rfl
      · rename_i e he
        have hdue : due H { s with proc := { s.proc with seen := s.proc.seen ++ [event] }.drain } = s.due H := by
          unfold due
          change (s.proc.seen ++ [event]).filterMap _ = _
          rw [List.filterMap_append]
          simp [bucketOf_error he]
        refine ⟨fun _ => rfl, ⟨[], hlen, fun _ => rfl, fun b => ?_, ?_⟩, h.lines⟩
        · rw [hdue]
          exact hcount b
        · rw [hdue]
          exact hsize
    · have hstay : s.proc.step H st (.recv event now) = s.proc := by
        unfold Proc.step
        simp only [hi, if_false, Bool.false_eq_true]
      rw [hstay]
      exact h
  | stop =>
    change Conserved H { s with proc := s.proc.step H st .stop }
    by_cases hi : s.proc.idle
    · have hdrain : s.proc.step H st .stop = s.proc.drain := if_pos hi
      rw [hdrain]
      exact h.frame rfl (fun hd => by cases hd) fun _ => rfl
    · have hstay : s.proc.step H st .stop = s.proc := if_neg hi
      rw [hstay]
      exact h
  | call =>
    cases hp : s.proc.todo with
    | nil =>
      have hstay : s.step H st interval (.call, wall) = s := by
        simp only [Metered.step, returning, Proc.step, hp, List.head?_nil, Option.elim_none]
      rw [hstay]
      exact h
    | cons c rest =>
      have hcall : s.step H st interval (.call, wall) =
          { s.counts interval wall c with proc := { s.proc with todo := rest }.perform st c } := by
        simp only [Metered.step, returning, Proc.step, hp, List.head?_cons, Option.elim_some]
      have hframe : ({ s.proc with todo := rest }.perform st c).todo = rest ∧
          ({ s.proc with todo := rest }.perform st c).seen = s.proc.seen ∧
          ({ s.proc with todo := rest }.perform st c).draining = s.proc.draining := by
        cases c <;> exact ⟨rfl, rfl, rfl⟩
      rw [hcall]
      exact h.counts hp wall hframe.1 hframe.2.1 hframe.2.2
  | raise =>
    change Conserved H { s with proc := s.proc.step H st .raise }
    have hm := Proc.move_step H st s.proc .raise
    generalize s.proc.step H st .raise = p at hm ⊢
    cases hm with
    | stay => exact h
    | drain => exact h.frame rfl (fun hd => by cases hd) fun _ => rfl
    | abandon hd => exact h.frame rfl (fun hd' => by rw [hd] at hd'; cases hd') fun _ => rfl
  | report i success =>
    change Conserved H { s with proc := s.proc.step H st (.report i success) }
    have hm := Proc.move_step H st s.proc (.report i success)
    generalize s.proc.step H st (.report i success) = p at hm ⊢
    cases hm with
    | stay => exact h
    | drain _ ha => rcases ha with ⟨ha, -⟩ | ⟨ha, -⟩ <;> cases ha
    | report => exact h.frame rfl (fun hd => ⟨hd, rfl⟩) h.drained

end Metered

open Metered

/-- **The counters count what is sent.** In every state of every run no event is counted twice and
at most one is missing, of which the iteration is not over or was cut off; at the top of the loop
every event received is counted, in its bucket, and the totals in the log never go back. -/
theorem metrics_conserved (H : Host) (st : IngestSettings) (interval now now' : ℤ)
    (as : List (Proc.Act × ℚ)) :
    let s := Trace.run (Metered.step H st interval) (.init now now') as
    let due := s.proc.seen.filterMap (bucketOf H)
    (∀ b, s.metrics.count b ≤ due.count b) ∧ due.length ≤ s.metrics.size + 1 ∧
      (s.proc.idle → (∀ b, s.metrics.count b = due.count b) ∧ s.metrics.size = due.length) ∧
      (s.lines.map StatsLine.eventsTotal).Pairwise (· ≤ ·) ∧ (s.lines.map StatsLine.dlqTotal).Pairwise (· ≤ ·) := by
  intro s due
  have h : s.Conserved H :=
    Trace.run_inv (I := Conserved H) (fun _ a h => conserved_step h a) (conserved_init now now') as
  obtain ⟨rest, hlen, hrest, hcount, hsize⟩ := h.count
  refine ⟨fun b => ?_, ?_, fun hi => ?_, h.lines.1, h.lines.2.1⟩
  · have hb : s.metrics.count b + rest.count b = due.count b := hcount b
    omega
  · have hall : s.metrics.size + rest.length = due.length := hsize
    omega
  · obtain ⟨hnil, hd⟩ := Proc.idle_iff.1 hi
    have hnone : rest = [] := by
      rw [hrest hd, hnil]
      rfl
    subst hnone
    exact ⟨hcount, hsize⟩

end BlueskyTrends
