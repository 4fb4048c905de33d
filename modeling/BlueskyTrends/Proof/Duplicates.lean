import BlueskyTrends.Proof.Recovery

/-!
# The landing load copies no row twice

* `copied_subperm_step`: with landing runs one at a time, the rows landed or about to be stay a
  sub-multiset of the bronze table.
* `landing_at_most_once`: so the landing table is one after every history.
-/

namespace BlueskyTrends

open HighWater

variable {Row : Type} [KafkaRow Row] {st : LandingSettings} {s s' : Store Row}

theorem scanned_sublist (bronze : List Row) (watermark : Option ℤ) :
    (scanned bronze watermark).Sublist bronze := by
  cases watermark with
  | none => exact List.Sublist.refl _
  | some w => exact List.filter_sublist

namespace Store

/-- Landing runs come one at a time. -/
def OneAtATime (s : Store Row) : StoreAct Row → Prop
  | .land a => s.Alone a
  | _ => True

instance (s : Store Row) : ∀ a, Decidable (s.OneAtATime a)
  | .land a => inferInstanceAs (Decidable (s.Alone a))
  | .append _ | .die _ => isTrue trivial

variable [DecidableEq Row]

/-- **The rows landed or about to be stay a sub-multiset of the bronze table.** -/
theorem copied_subperm_move {a : StoreAct Row} (hone : s.OneAtATime a)
    (h : s.copied.Subperm s.bronze) (hm : Move st s a s') : s'.copied.Subperm s'.bronze := by
  cases hm with
  | stay => exact h
  | append rows => exact h.trans (List.sublist_append_left _ _).subperm
  | begin arrow blocks hp hb =>
    -- no run is in progress, so the rows copied so far are the rows landed
    have hjobs : s.jobs = [] := hone
    have hlanded : s.copied = s.landing := by simp [copied, pending_eq_nil hjobs]
    have hcopied : copied { s with jobs := s.jobs ++ [⟨s.bronze, blocks⟩] } = s.landing ++ arrow := by
      simp [copied, pending, hjobs, hb]
    have habove : ∀ r ∈ arrow, Above ingestTs {y | y ∈ s.landing} r := by
      intro r hr
      exact (mem_scanned.1 (hp.mem_iff.1 hr)).2
    have harrow : arrow.Subperm s.bronze := hp.subperm.trans (scanned_sublist _ _).subperm
    rw [hlanded] at h
    rw [hcopied]
    exact append_fetched_subperm h harrow habove
  | insert i l l' snapshot block blocks hj =>
    -- a block moves from the rows to insert to the rows landed
    have hperm : (copied { s with landing := s.landing ++ block, jobs := l ++ ⟨snapshot, blocks⟩ :: l' }).Perm
        s.copied := by
      simp only [copied, pending, hj, List.flatMap_append, List.flatMap_cons, List.flatten_cons,
        List.append_assoc]
      refine List.Perm.append_left _ ?_
      simp only [← List.append_assoc]
      exact (List.perm_append_comm.append_right _).append_right _
    exact hperm.subperm.trans h
  | finish i l l' snapshot hj =>
    have hcopied : copied { s with jobs := l ++ l' } = s.copied := by simp [copied, pending, hj]
    rw [hcopied]
    exact h
  | die i l l' j hj hi =>
    -- the rows that the run had still to insert are gone
    have hsub : (copied { s with jobs := l ++ l' }).Sublist s.copied := by
      simp only [copied, pending, hj, List.flatMap_append, List.flatMap_cons]
      exact List.Sublist.append_left
        (List.Sublist.append_left (List.sublist_append_right _ _) _) _
    exact hsub.subperm.trans h

theorem copied_subperm_step {a : StoreAct Row} (hone : s.OneAtATime a) (h : s.copied.Subperm s.bronze) :
    (s.step st a).copied.Subperm (s.step st a).bronze :=
  copied_subperm_move hone h (move_step st s a)

theorem copied_subperm_run (bronze : List Row) {as : List (StoreAct Row)}
    (hone : Trace.Along (step st) OneAtATime (init bronze) as) :
    (Trace.run (step st) (init bronze) as).copied.Subperm (Trace.run (step st) (init bronze) as).bronze := by
  refine Trace.run_inv_along (I := fun s => s.copied.Subperm s.bronze) ?_ ?_ hone
  · intro s a hok h
    exact copied_subperm_step hok h
  · exact List.nil_subperm

end Store

/-- **At most once.** From any bronze table, whatever is appended to it, and with landing runs one at a
time, each completing or dying after any of its blocks: the landing table is a sub-multiset of the bronze
table, and holds a row once where the rows of the bronze table are told apart. -/
theorem landing_at_most_once [DecidableEq Row] (st : LandingSettings) (bronze : List Row)
    (as : List (StoreAct Row)) (hone : Trace.Along (Store.step st) Store.OneAtATime (.init bronze) as) :
    let s := Trace.run (Store.step st) (.init bronze) as
    s.landing.Subperm s.bronze ∧ (s.bronze.Nodup → s.landing.Nodup) := by
  intro s
  have hcopied : s.copied.Subperm s.bronze := Store.copied_subperm_run bronze hone
  have hlanding : s.landing.Subperm s.bronze := (List.sublist_append_left _ _).subperm.trans hcopied
  refine ⟨hlanding, fun hnodup => ?_⟩
  exact List.nodup_iff_count_le_one.2 fun r =>
    (hlanding.count_le r).trans (List.nodup_iff_count_le_one.1 hnodup r)

/-- A row with a number that tells it apart from equal ones. -/
instance : KafkaRow (Row × ℕ) := ⟨fun r => KafkaRow.base r.1⟩

/-- Two equal posts and one with their stamp, scanned in any order; the run dies with one row landed, a
later post comes, and the next run lands it. -/
def tiedStamps : List (StoreAct (BronzeRow × ℕ)) :=
  [.append [(stampedPost 1 1, 2)], .land (.begin [(stampedPost 0 1, 1), (stampedPost 1 1, 2),
      (stampedPost 0 1, 0)]), .land (.insert 0), .die 0, .append [(stampedPost 0 2, 3)],
    .land (.begin [(stampedPost 0 2, 3)]), .land (.insert 0), .land (.finish 0)]

theorem landing_at_most_once_tied :
    (Trace.run (Store.step rowByRow) (.init [(stampedPost 0 1, 0), (stampedPost 0 1, 1)])
      tiedStamps).landing = [(stampedPost 0 1, 1), (stampedPost 0 2, 3)] ∧
    (Trace.run (Store.step rowByRow) (.init [(stampedPost 0 1, 0), (stampedPost 0 1, 1)])
      tiedStamps).landing.Nodup :=
  ⟨by decide, (landing_at_most_once rowByRow _ tiedStamps (by decide)).2 (by decide)⟩

end BlueskyTrends
