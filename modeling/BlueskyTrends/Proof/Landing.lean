import BlueskyTrends.Landing.Load

/-!
# When landing runs are complete

A landing run scans above the rows landed and lands its scan block by block. It is complete as long as
nothing is missing below a row landed or about to be.

* `move_step`: what a step of the bronze and landing tables can do.
* `sound_step`: a timely step leaves no gap.
* `incomplete_of_gap`: a run that scans over a gap completes without the missing row.
* `recovers_iff_timely`: every landing run is complete exactly when every step is timely.
-/

namespace BlueskyTrends

open HighWater

variable {Row : Type} [KafkaRow Row] {st : LandingSettings} {s s' : Store Row}

/-- What can happen to the tables. -/
inductive StoreAct (Row : Type) where
  | append (rows : List Row)
  | land (a : LandAct Row)
  | die (i : ℕ)

/-- The rows of one list are in the other, or stamped after all of it. -/
abbrev Follows (rows landed : List Row) : Prop := Gapless ingestTs {r | r ∈ rows} {r | r ∈ landed}

theorem follows_append {rows rows' landed : List Row} :
    Follows (rows ++ rows') landed ↔ Follows rows landed ∧ Follows rows' landed := by
  rw [Follows, setOf_append, gapless_union_iff]

namespace Store

/-- A step of the tables. -/
inductive Move (st : LandingSettings) (s : Store Row) : StoreAct Row → Store Row → Prop where
  | stay (a : StoreAct Row) : Move st s a s
  | append (rows : List Row) : Move st s (.append rows) { s with bronze := s.bronze ++ rows }
  | begin (arrow : List Row) (blocks : List (List Row))
      (hp : arrow.Perm (scanned s.bronze (watermark s.landing))) (hb : blocks.flatten = arrow) :
      Move st s (.land (.begin arrow)) { s with jobs := s.jobs ++ [⟨s.bronze, blocks⟩] }
  | insert (i : ℕ) (l l' : List (Job Row)) (snapshot block : List Row) (blocks : List (List Row))
      (hj : s.jobs = l ++ ⟨snapshot, block :: blocks⟩ :: l') : Move st s (.land (.insert i))
        { s with landing := s.landing ++ block, jobs := l ++ ⟨snapshot, blocks⟩ :: l' }
  | finish (i : ℕ) (l l' : List (Job Row)) (snapshot : List Row)
      (hj : s.jobs = l ++ ⟨snapshot, []⟩ :: l') :
      Move st s (.land (.finish i)) { s with jobs := l ++ l' }
  | die (i : ℕ) (l l' : List (Job Row)) (j : Job Row) (hj : s.jobs = l ++ j :: l') (hi : l.length = i) :
      Move st s (.die i) { s with jobs := l ++ l' }

/-! ## No gap -/

/-- The rows landed or about to be. -/
def copied (s : Store Row) : List Row := s.landing ++ s.pending

/-- What holds as long as no step is untimely. -/
structure Sound (s : Store Row) : Prop where
  source : s.copied ⊆ s.bronze
  gapless : Follows s.bronze s.copied
  jobs : ∀ j ∈ s.jobs, j.snapshot ⊆ s.landing ++ j.blocks.flatten

/-- Rows appended come after every row landed or about to be; a scan finds the rows of the runs in
progress landed, or after every row landed; a run dies with its rows so. -/
def Timely (s : Store Row) : StoreAct Row → Prop
  | .append rows => Follows rows s.copied
  | .land (.begin arrow) =>
    arrow.Perm (scanned s.bronze (watermark s.landing)) → Follows s.pending s.landing
  | .land _ => True
  | .die i => Follows s.pending (s.die i).copied

theorem sound_init (bronze : List Row) : (init bronze).Sound :=
  ⟨List.nil_subset _, fun _ _ => Or.inr fun _ hr => absurd hr List.not_mem_nil, by simp [init]⟩

theorem Sound.complete (h : s.Sound) : s.Complete := fun j hj hb _ hr => by
  have := h.jobs j hj hr
  simpa [hb] using this

/-- A scan over a table without a gap returns all that is missing. -/
theorem subset_scanned (h : Follows s.bronze s.landing) :
    s.bronze ⊆ s.landing ++ scanned s.bronze (watermark s.landing) := fun _ hr =>
  List.mem_append.2 ((complete_iff_gapless.2 h hr).imp id mem_scanned.2)

theorem Sound.follows_landing (h : s.Sound) (hp : Follows s.pending s.landing) :
    Follows s.bronze s.landing :=
  Gapless.of_union (setOf_append s.landing s.pending ▸ h.gapless) hp

/-- A step that moves rows between the landed and the pending ones. -/
theorem Sound.of_copied (h : s.Sound) (hb : s'.bronze = s.bronze) (hc : ∀ r, r ∈ s'.copied ↔ r ∈ s.copied)
    (hj : ∀ j ∈ s'.jobs, j.snapshot ⊆ s'.landing ++ j.blocks.flatten) : s'.Sound where
  source := fun r hr => hb ▸ h.source ((hc r).1 hr)
  gapless := by
    have : {r | r ∈ s'.copied} = {r | r ∈ s.copied} := Set.ext hc
    rw [Follows, this, hb]
    exact h.gapless
  jobs := hj

/-- **A timely step leaves no gap.** -/
theorem sound_move (h : s.Sound) {a : StoreAct Row} (hok : s.Timely a) (hm : Move st s a s') :
    s'.Sound := by
  cases hm with
  | stay => exact h
  | append rows =>
    exact ⟨List.subset_append_of_subset_left _ h.source, follows_append.2 ⟨h.gapless, hok⟩, h.jobs⟩
  | begin arrow blocks hp hb =>
    -- no gap below the landed rows, so the scan holds all that is missing
    have hall := subset_scanned (h.follows_landing (hok hp))
    have hblocks : ∀ r, r ∈ blocks.flatten ↔ r ∈ scanned s.bronze (watermark s.landing) := fun r => by
      rw [hb, hp.mem_iff]
    have hcopied : ∀ r, r ∈ copied { s with jobs := s.jobs ++ [⟨s.bronze, blocks⟩] } ↔
        r ∈ s.copied ∨ r ∈ blocks.flatten := fun r => by simp [copied, pending, or_assoc]
    have hnew : s.bronze ⊆ s.landing ++ blocks.flatten := fun r hr =>
      List.mem_append.2 ((List.mem_append.1 (hall hr)).imp id (hblocks r).2)
    refine ⟨fun r hr => ?_, gapless_of_subset fun r hr => (hcopied r).2 ?_, fun j hj => ?_⟩
    · rcases (hcopied r).1 hr with hr | hr
      · exact h.source hr
      · exact (mem_scanned.1 ((hblocks r).1 hr)).1
    · exact (List.mem_append.1 (hnew hr)).imp (List.mem_append_left _) id
    · rcases List.mem_append.1 hj with hj | hj
      · exact h.jobs j hj
      · obtain rfl := List.mem_singleton.1 hj
        exact hnew
  | insert i l l' snapshot block blocks hj =>
    -- a block moves from the rows to insert to the rows landed
    have hold : ∀ j ∈ s.jobs, j.snapshot ⊆ s.landing ++ block ++ j.blocks.flatten := by
      intro j hj' r hr
      have hmem := h.jobs j hj' hr
      simp only [List.mem_append] at hmem ⊢
      tauto
    refine h.of_copied rfl (fun r => ?_) fun j hj' => ?_
    · simp only [copied, pending, hj, List.mem_append, List.flatMap_append, List.flatMap_cons,
        List.flatten_cons]
      tauto
    · have hcases : j ∈ s.jobs ∨ j = ⟨snapshot, blocks⟩ := by
        simp only [hj, List.mem_append, List.mem_cons] at hj' ⊢
        tauto
      rcases hcases with hj' | rfl
      · exact hold j hj'
      · have hsnap := h.jobs ⟨snapshot, block :: blocks⟩ (by simp [hj])
        simpa using hsnap
  | finish i l l' snapshot hj =>
    refine h.of_copied rfl (fun r => ?_) fun j hj' => ?_
    · simp [copied, pending, hj]
    · exact h.jobs j (by rw [hj]; simp only [List.mem_append, List.mem_cons] at hj' ⊢; tauto)
  | die i l l' j hj hi =>
    have hdie : s.die i = { s with jobs := l ++ l' } := by
      simp [die, hj, ← hi, List.eraseIdx_append_of_length_le]
    rw [← hdie]
    have hcopied : ∀ r, r ∈ s.copied ↔ r ∈ (s.die i).copied ∨ r ∈ s.pending := fun r => by
      simp only [hdie, copied, pending, hj, List.mem_append, List.flatMap_append, List.flatMap_cons]
      tauto
    refine ⟨fun r hr => h.source ((hcopied r).2 (Or.inl hr)), ?_, fun j hj' => h.jobs j ?_⟩
    · have hrows : {r | r ∈ s.copied} = {r | r ∈ (s.die i).copied} ∪ {r | r ∈ s.pending} :=
        Set.ext hcopied
      exact Gapless.of_union (hrows ▸ h.gapless) hok
    · exact List.mem_of_mem_eraseIdx hj'

end Store

/-! ## The steps -/

theorem split_of_getElem? {α : Type} {l : List α} {i : ℕ} {x : α} (h : l[i]? = some x) :
    l = l.take i ++ x :: l.drop (i + 1) ∧ (l.take i).length = i := by
  obtain ⟨hi, rfl⟩ := List.getElem?_eq_some_iff.1 h
  exact ⟨by simp, by simp [hi.le]⟩

variable [DecidableEq Row]

instance (rows landed : List Row) : Decidable (Follows rows landed) :=
  inferInstanceAs (Decidable (∀ r ∈ rows, r ∈ landed ∨ ∀ r' ∈ landed, ingestTs r' < ingestTs r))

namespace Store

instance (s : Store Row) : ∀ a, Decidable (s.Timely a)
  | .append rows => inferInstanceAs (Decidable (Follows rows s.copied))
  | .land (.begin arrow) => inferInstanceAs (Decidable
      (arrow.Perm (scanned s.bronze (watermark s.landing)) → Follows s.pending s.landing))
  | .land (.insert _) | .land (.finish _) => isTrue trivial
  | .die i => inferInstanceAs (Decidable (Follows s.pending (s.die i).copied))

def step (st : LandingSettings) (s : Store Row) : StoreAct Row → Store Row
  | .append rows => s.append rows
  | .land a => s.land st a
  | .die i => s.die i

theorem land_begin (st : LandingSettings) {arrow : List Row}
    (h : arrow.Perm (scanned s.bronze (watermark s.landing))) :
    ∃ blocks, blocks.flatten = arrow ∧
      s.land st (.begin arrow) = { s with jobs := s.jobs ++ [⟨s.bronze, blocks⟩] } :=
  ⟨_, blocksOf_flatten st arrow, if_pos h⟩

theorem land_insert {l l' : List (Job Row)} {snapshot block : List Row} {blocks : List (List Row)}
    (h : s.jobs = l ++ ⟨snapshot, block :: blocks⟩ :: l') : s.land st (.insert l.length) =
      { s with landing := s.landing ++ block, jobs := l ++ ⟨snapshot, blocks⟩ :: l' } := by
  simp [land, h]

theorem land_finish {l l' : List (Job Row)} {snapshot : List Row}
    (h : s.jobs = l ++ ⟨snapshot, []⟩ :: l') :
    s.land st (.finish l.length) = { s with jobs := l ++ l' } := by
  simp [land, h, List.eraseIdx_append_of_length_le]

theorem move_step (st : LandingSettings) (s : Store Row) (a : StoreAct Row) :
    Move st s a (s.step st a) := by
  cases a with
  | append rows => exact .append rows
  | die i =>
    cases hj : s.jobs[i]? with
    | none =>
      have : s.die i = s := by simp [die, List.eraseIdx_of_length_le (List.getElem?_eq_none_iff.1 hj)]
      rw [step, this]; exact .stay _
    | some j =>
      obtain ⟨hs, hi⟩ := split_of_getElem? hj
      rw [step, die, List.eraseIdx_eq_take_drop_succ]
      exact .die i _ _ j hs hi
  | land a =>
    rw [step]
    cases a with
    | begin arrow =>
      by_cases hp : arrow.Perm (scanned s.bronze (watermark s.landing))
      · obtain ⟨blocks, hb, hs⟩ := land_begin st hp
        rw [hs]; exact .begin arrow blocks hp hb
      · rw [land, if_neg hp]; exact .stay _
    | insert i =>
      cases hj : s.jobs[i]? with
      | none => simp only [land, hj]; exact .stay _
      | some j =>
        obtain ⟨hs, hi⟩ := split_of_getElem? hj
        obtain ⟨snapshot, _ | ⟨block, blocks⟩⟩ := j
        · simp only [land, hj]; exact .stay _
        · rw [← hi, land_insert hs]; exact .insert _ _ _ _ _ _ hs
    | finish i =>
      cases hj : s.jobs[i]? with
      | none => simp only [land, hj]; exact .stay _
      | some j =>
        obtain ⟨hs, hi⟩ := split_of_getElem? hj
        obtain ⟨snapshot, _ | ⟨block, blocks⟩⟩ := j
        · rw [← hi, land_finish hs]; exact .finish _ _ _ _ hs
        · simp only [land, hj]; exact .stay _

theorem sound_step (h : s.Sound) {a : StoreAct Row} (hok : s.Timely a) : (s.step st a).Sound :=
  sound_move h hok (move_step st s a)

/-! ## A gap -/

/-- Landing runs go on, one starting only when none is in progress. -/
def Alone (s : Store Row) : LandAct Row → Prop
  | .begin _ => s.jobs = []
  | _ => True

/-- Landing runs are complete, here and however they go on, one at a time. -/
def Recovers (st : LandingSettings) (s : Store Row) : Prop :=
  ∀ cs, Trace.Along (land st) Alone s cs → (Trace.run (land st) s cs).Complete

theorem Sound.recovers (h : s.Sound) : s.Recovers st := by
  intro cs hcs
  refine (Trace.run_inv_along (I := Sound) (fun s a hok h => ?_) h hcs).complete
  refine sound_step h (a := .land a) ?_
  cases a with
  | begin arrow =>
    intro _
    rw [pending_eq_nil hok]
    exact gapless_of_subset fun _ hr => absurd hr List.not_mem_nil
  | insert | finish => trivial

/-- The blocks of a run are inserted, whatever other runs do not do. -/
theorem run_inserts (l l' : List (Job Row)) (snapshot : List Row) (blocks : List (List Row))
    (bronze landing : List Row) :
    Trace.run (land st) ⟨bronze, landing, l ++ ⟨snapshot, blocks⟩ :: l'⟩
      (List.replicate blocks.length (.insert l.length)) =
      ⟨bronze, landing ++ blocks.flatten, l ++ ⟨snapshot, []⟩ :: l'⟩ := by
  -- one insert a block; the landing table grows with each
  induction blocks generalizing landing with
  | nil => simp
  | cons block blocks ih =>
    rw [List.length_cons, List.replicate_succ, Trace.run_cons, land_insert rfl, ih]
    simp

/-- **A run that scans over a gap completes without the missing row.** -/
theorem incomplete_of_gap (st : LandingSettings) (hgap : ¬ Follows s.bronze s.landing)
    {arrow : List Row} (hp : arrow.Perm (scanned s.bronze (watermark s.landing))) :
    ¬ (s.land st (.begin arrow)).Recovers st := by
  obtain ⟨blocks, hb, hs⟩ := land_begin st hp
  intro h
  rw [hs] at h
  have halone : Trace.Along (land st) Alone { s with jobs := s.jobs ++ [⟨s.bronze, blocks⟩] }
      (List.replicate blocks.length (.insert s.jobs.length)) :=
    Trace.along_of_forall fun _ a ha => by rw [List.eq_of_mem_replicate ha]; trivial
  have hc := h _ halone
  rw [run_inserts] at hc
  -- were the run complete, the scan would have held every missing row
  refine hgap (complete_iff_gapless.1 fun r hr => ?_)
  have hr := hc ⟨s.bronze, []⟩ (by simp) rfl r hr
  rw [hb, List.mem_append, hp.mem_iff] at hr
  exact hr.imp id mem_scanned.1

/-- The runs in progress can come to their ends. -/
theorem drain (st : LandingSettings) (bronze landing : List Row) (jobs : List (Job Row)) : ∃ cs,
    Trace.Along (land st) Alone ⟨bronze, landing, jobs⟩ cs ∧
      Trace.run (land st) ⟨bronze, landing, jobs⟩ cs =
        ⟨bronze, landing ++ jobs.flatMap fun j => j.blocks.flatten, []⟩ := by
  -- the first run inserts its blocks and finishes, then the others go on
  induction jobs generalizing landing with
  | nil => exact ⟨[], trivial, by simp⟩
  | cons j jobs ih =>
    obtain ⟨cs, hcs, hrun⟩ := ih (landing ++ j.blocks.flatten)
    have hj : Trace.run (land st) ⟨bronze, landing, j :: jobs⟩
        (List.replicate j.blocks.length (.insert 0)) =
        ⟨bronze, landing ++ j.blocks.flatten, ⟨j.snapshot, []⟩ :: jobs⟩ :=
      run_inserts [] jobs j.snapshot j.blocks bronze landing
    have hf : land st ⟨bronze, landing ++ j.blocks.flatten, ⟨j.snapshot, []⟩ :: jobs⟩ (.finish 0) =
        ⟨bronze, landing ++ j.blocks.flatten, jobs⟩ := land_finish (l := []) rfl
    refine ⟨List.replicate j.blocks.length (.insert 0) ++ .finish 0 :: cs, ?_, ?_⟩
    · refine Trace.along_append.2 ⟨Trace.along_of_forall fun s a ha => ?_, trivial, ?_⟩
      · rw [List.eq_of_mem_replicate ha]; trivial
      · rw [hj, hf]; exact hcs
    · rw [Trace.run_append, Trace.run_cons, hj, hf, hrun, List.flatMap_cons, List.append_assoc]

/-- **A run to come is not complete over a gap**, also when the runs in progress end first. -/
theorem not_recovers_of_gap (hgap : ¬ Follows s.bronze s.copied) : ¬ s.Recovers st := by
  intro h
  obtain ⟨cs, hcs, hrun⟩ := drain st s.bronze s.landing s.jobs
  refine incomplete_of_gap st (s := ⟨s.bronze, s.copied, []⟩) hgap (List.Perm.refl _) fun cs' hcs' => ?_
  have hc := h (cs ++ .begin (scanned s.bronze (watermark s.copied)) :: cs')
  rw [Trace.run_append, Trace.run_cons, hrun] at hc
  exact hc (Trace.along_append.2 ⟨hcs, by rw [hrun]; exact ⟨rfl, hcs'⟩⟩)

/-- **An untimely step leaves a gap.** -/
theorem not_recovers_of_untimely (h : s.Sound) {a : StoreAct Row} (hok : ¬ s.Timely a) :
    ¬ (s.step st a).Recovers st := by
  have hpending : ∀ r ∈ s.pending, r ∈ s.bronze := fun r hr => h.source (List.mem_append_right _ hr)
  cases a with
  | append rows => exact not_recovers_of_gap fun hf => hok (follows_append.1 hf).2
  | die i => exact not_recovers_of_gap fun hf => hok (hf.subset hpending)
  | land a =>
    cases a with
    | begin arrow =>
      obtain ⟨hp, hno⟩ := Classical.not_imp.1 hok
      exact incomplete_of_gap st (fun hf => hno (hf.subset hpending)) hp
    | insert | finish => exact absurd trivial hok

/-- **Landing runs recover exactly when every step is timely.** -/
theorem recovers_iff_timely (bronze : List Row) (as : List (StoreAct Row)) :
    (∀ bs, bs <+: as → (Trace.run (step st) (init bronze) bs).Recovers st) ↔
      Trace.Along (step st) Timely (init bronze) as :=
  Trace.forall_prefix_iff_along (I := Sound) (fun _ _ hok h => sound_step h hok) (fun _ h => h.recovers)
    (fun _ _ h hok => not_recovers_of_untimely h hok) (sound_init bronze)

end Store

end BlueskyTrends
