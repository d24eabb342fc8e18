import EmailExtractor.Library.Balance
import EmailExtractor.Queue.Effects

/-!
# Fair shares

What a series of claims does when nothing else happens. `_PICK_JOBS` puts first a job whose
owner has the fewest running rows, and of one owner's jobs one that has the fewest, so every
claim serves the least served. Within a job the rows are handed out by their `seq`.
-/

namespace EmailExtractor

namespace Queue

open Balance

def ownerCount (s : Store) (o : Option ℕ) : ℕ :=
  s.running fun j => decide ((s.job j).ownerId = o)

/-- The job can be claimed from once its queued rows are available. -/
def Waiting (s : Store) (j : JobId) : Prop :=
  .job j ∈ s.rows ∧ (s.job j).active = true ∧
    ∃ d, .row j d ∈ s.rows ∧ (s.row j d).state = .queued

def AllAvailable (s : Store) (now : Time) : Prop :=
  (s.rowsWhere fun _ r => decide (r.state = .queued) && !decide (r.availableAt ≤ now)) = ∅

def Op.isClaim : Op → Bool
  | .claim _ _ => true
  | _ => false

/-- The action is a claim, made when every queued row is available. -/
def OnlyClaims (s : System) (a : Action) : Prop :=
  a.op.isClaim = true ∧ AllAvailable s.store a.now

instance (s : System) (a : Action) : Decidable (OnlyClaims s a) :=
  inferInstanceAs (Decidable (_ ∧ _ = ∅))

def NoneRunning (s : System) : Prop :=
  (s.store.rowsWhere fun _ r => decide (r.state = .running)) = ∅

section

variable {s : Store} {now : Time} {j j' : JobId} {d d' : Str}

theorem AllAvailable.le (h : AllAvailable s now) (hrow : .row j d ∈ s.rows)
    (hqueued : (s.row j d).state = .queued) : (s.row j d).availableAt ≤ now := by
  have hnot := Finset.eq_empty_iff_forall_notMem.mp h (.row j d)
  rw [Store.row_mem_rowsWhere] at hnot
  simpa [hrow, hqueued] using hnot

/-! ## What a claim picks -/

theorem claimableRows_ne_empty : s.claimableRows now j ≠ ∅ ↔
    ∃ d, .row j d ∈ s.rows ∧ (s.row j d).claimable now = true := by
  rw [← Finset.nonempty_iff_ne_empty]
  constructor
  · rintro ⟨k, hk⟩
    rw [Store.claimableRows, Store.mem_rowsWhere] at hk
    simp only [Bool.and_eq_true, decide_eq_true_eq] at hk
    obtain ⟨_, d, -, hmem, rfl, hclaimable⟩ := hk
    exact ⟨d, hmem, hclaimable⟩
  · rintro ⟨d, hmem, hclaimable⟩
    refine ⟨.row j d, ?_⟩
    rw [Store.claimableRows, Store.row_mem_rowsWhere]
    exact ⟨hmem, by simp [hclaimable]⟩

theorem Waiting.of_pickable (h : s.pickable now j = true) : Waiting s j := by
  simp only [Store.pickable, Bool.and_eq_true, decide_eq_true_eq] at h
  obtain ⟨⟨hmem, hactive⟩, hrows⟩ := h
  obtain ⟨d, hrow, hclaimable⟩ := claimableRows_ne_empty.mp hrows
  simp only [JobDomain.claimable, Bool.and_eq_true, decide_eq_true_eq] at hclaimable
  exact ⟨hmem, hactive, d, hrow, hclaimable.1⟩

theorem Waiting.pickable (h : Waiting s j) (havailable : AllAvailable s now) :
    s.pickable now j = true := by
  obtain ⟨hmem, hactive, d, hrow, hqueued⟩ := h
  simp only [Store.pickable, Bool.and_eq_true, decide_eq_true_eq]
  refine ⟨⟨hmem, hactive⟩, claimableRows_ne_empty.mpr ⟨d, hrow, ?_⟩⟩
  simp [JobDomain.claimable, hqueued, havailable.le hrow hqueued]

theorem claim_first (worker : Str) {tries : List Try} (hchoices : ClaimChoices s now tries) :
    (tries = [] ∧ claim s now worker tries = (s, none)) ∨
      ∃ t rest, tries = t :: rest ∧ s.NextRow now t.jobId t.domain ∧
        (claim s now worker tries).1 =
          (s.exec (claimRow now (newToken worker t.hex) t.jobId t.domain)).exec
            (startJob now t.jobId) ∧
        (claim s now worker tries).2.isSome = true := by
  cases tries with
  | nil => exact .inl ⟨rfl, rfl⟩
  | cons t rest =>
    obtain ⟨⟨-, -, hpick, -⟩, hnext⟩ := hchoices
    have hpicked := hpick t.jobId (List.mem_map_of_mem List.mem_cons_self)
    simp only [Store.pickable, Bool.and_eq_true, decide_eq_true_eq] at hpicked
    refine .inr ⟨t, rest, rfl, hnext t List.mem_cons_self hpicked.2, ?_⟩
    simp only [claim, claimLoop, if_neg hpicked.2, Option.isSome_some, and_self]

theorem PickJobs.first {js : List JobId} (h : s.PickJobs now (j :: js))
    (hpick : s.pickable now j' = true) :
    s.ownerRunning j ≤ s.ownerRunning j' ∧
      (s.ownerRunning j = s.ownerRunning j' → s.jobRunning j ≤ s.jobRunning j') := by
  obtain ⟨-, -, -, hsorted, hrest⟩ := h
  by_cases hsame : j' = j
  · subst hsame
    exact ⟨le_rfl, fun _ => le_rfl⟩
  have hranks : s.ranksBefore j j' = true := by
    by_cases hmem : j' ∈ js
    · exact (List.pairwise_cons.mp hsorted).1 j' hmem
    · have hjob : .job j' ∈ s.rows := (Waiting.of_pickable hpick).1
      have hout : j' ∉ j :: js := by simp [hsame, hmem]
      exact (hrest _ hjob j' rfl hpick hout).2 j List.mem_cons_self
  simp only [Store.ranksBefore, Bool.or_eq_true, Bool.and_eq_true, decide_eq_true_eq] at hranks
  omega

/-! ## What a claim changes -/

def served (s : Store) (now : Time) (tok : Str) (j : JobId) (d : Str) : Store :=
  (s.exec (claimRow now tok j d)).exec (startJob now j)

variable {tok : Str}

@[simp] theorem served_rows : (served s now tok j d).rows = s.rows := rfl

theorem served_row : (served s now tok j d).row j' d' =
    if .row j' d' ∈ s.rows ∧ j' = j ∧ d' = d then (s.row j' d').claimed now tok
    else s.row j' d' := by
  rw [served, startJob, Store.row_exec_onJob, claimRow, Store.row_exec_onRow]
  simp

theorem served_job (s : Store) (now : Time) (tok : Str) (j : JobId) (d : Str) (j' : JobId) :
    (served s now tok j d).job j' = s.job j' ∨
      (served s now tok j d).job j' = (s.job j').started now := by
  rw [served, startJob, Store.job_exec_onJob, claimRow, Store.job_exec_onRow]
  split
  · exact .inr rfl
  · exact .inl rfl

@[simp] theorem served_ownerId :
    ((served s now tok j d).job j').ownerId = (s.job j').ownerId := by
  rcases served_job s now tok j d j' with h | h
  · rw [h]
  · rw [h]
    rfl

theorem active_of_served (h : ((served s now tok j d).job j').active = true) :
    (s.job j').active = true := by
  rcases served_job s now tok j d j' with hjob | hjob
  · rwa [hjob] at h
  · rw [hjob] at h
    simp only [Job.active, Job.started, Bool.or_eq_true, decide_eq_true_eq] at h ⊢
    by_cases hqueued : (s.job j').status = .queued
    · exact .inl hqueued
    · simpa [hqueued] using h

theorem queued_of_served (h : ((served s now tok j d).row j' d').state = .queued) :
    (s.row j' d').state = .queued ∧ (served s now tok j d).row j' d' = s.row j' d' := by
  rw [served_row] at h ⊢
  split at h
  · simp [JobDomain.claimed] at h
  · rename_i hother
    exact ⟨h, if_neg hother⟩

theorem running_of_served (h : ((served s now tok j d).row j' d').state = .running) :
    (j' = j ∧ d' = d) ∨ (s.row j' d').state = .running := by
  rw [served_row] at h
  split at h
  · rename_i hsame
    exact .inl hsame.2
  · exact .inr h

theorem seq_served : ((served s now tok j d).row j' d').seq = (s.row j' d').seq := by
  rw [served_row]
  split <;> rfl

theorem Waiting.of_served (h : Waiting (served s now tok j d) j') : Waiting s j' := by
  obtain ⟨hmem, hactive, d', hrow, hqueued⟩ := h
  exact ⟨hmem, active_of_served hactive, d', hrow, (queued_of_served hqueued).1⟩

theorem row_mem_running {which : JobId → Bool} :
    .row j' d' ∈ (s.rowsWhere fun j r =>
        decide (.job j ∈ s.rows) && which j && decide (r.state = .running)) ↔
      .row j' d' ∈ s.rows ∧ .job j' ∈ s.rows ∧ which j' = true ∧
        (s.row j' d').state = .running := by
  rw [Store.row_mem_rowsWhere]
  simp only [Bool.and_eq_true, decide_eq_true_eq, and_assoc]

theorem mem_running_served (which : JobId → Bool) (hmem : .job j ∈ s.rows)
    (hrow : .row j d ∈ s.rows) (k : Key) :
    k ∈ ((served s now tok j d).rowsWhere fun j' r =>
        decide (.job j' ∈ (served s now tok j d).rows) && which j' &&
          decide (r.state = .running)) ↔
      (k = .row j d ∧ which j = true) ∨
        k ∈ s.rowsWhere fun j' r =>
          decide (.job j' ∈ s.rows) && which j' && decide (r.state = .running) := by
  have hstate : ∀ j' d', ((served s now tok j d).row j' d').state = .running ↔
      (j' = j ∧ d' = d) ∨ (s.row j' d').state = .running := by
    intro j' d'
    rw [served_row]
    by_cases hsame : j' = j ∧ d' = d
    · obtain ⟨rfl, rfl⟩ := hsame
      simp [hrow, JobDomain.claimed]
    · rw [if_neg fun h => hsame h.2]
      simp [hsame]
  have hother : (∀ j d, k ≠ Key.row j d) → ∀ (s : Store) p, k ∉ s.rowsWhere p := by
    intro hk s p hmem
    obtain ⟨j, d, rfl, -⟩ := Store.mem_rowsWhere.mp hmem
    exact hk j d rfl
  cases k with
  | row j' d' =>
    rw [row_mem_running, row_mem_running, hstate, served_rows, Key.row.injEq]
    constructor
    · rintro ⟨hrow', hmem', hwhich, ⟨rfl, rfl⟩ | hrunning⟩
      · exact .inl ⟨⟨rfl, rfl⟩, hwhich⟩
      · exact .inr ⟨hrow', hmem', hwhich, hrunning⟩
    · rintro (⟨⟨rfl, rfl⟩, hwhich⟩ | ⟨hrow', hmem', hwhich, hrunning⟩)
      · exact ⟨hrow, hmem, hwhich, .inl ⟨rfl, rfl⟩⟩
      · exact ⟨hrow', hmem', hwhich, .inr hrunning⟩
  | job _ | domain _ => simp [hother]

theorem running_served (which : JobId → Bool) (hmem : .job j ∈ s.rows)
    (hrow : .row j d ∈ s.rows) (hqueued : (s.row j d).state = .queued) :
    (served s now tok j d).running which =
      if which j = true then s.running which + 1 else s.running which := by
  unfold Store.running
  split
  · rename_i hj
    rw [← Finset.card_insert_of_notMem (a := Key.row j d)]
    · congr 1
      ext k
      rw [Finset.mem_insert, mem_running_served which hmem hrow, and_iff_left hj]
    · rw [row_mem_running, hqueued]
      simp
  · rename_i hj
    congr 1
    ext k
    rw [mem_running_served which hmem hrow]
    exact or_iff_right fun h => hj h.2

theorem ownerRunning_eq : s.ownerRunning j = ownerCount s (s.job j).ownerId := rfl

section

variable (hmem : .job j ∈ s.rows) (hrow : .row j d ∈ s.rows) (hqueued : (s.row j d).state = .queued)

include hmem hrow hqueued

theorem ownerCount_served {o : Option ℕ} :
    ownerCount (served s now tok j d) o =
      if o = (s.job j).ownerId then ownerCount s o + 1 else ownerCount s o := by
  unfold ownerCount
  simp only [served_ownerId]
  rw [running_served _ hmem hrow hqueued]
  simp only [decide_eq_true_eq]
  exact if_congr eq_comm rfl rfl

theorem jobRunning_served :
    (served s now tok j d).jobRunning j' =
      if j' = j then s.jobRunning j' + 1 else s.jobRunning j' := by
  unfold Store.jobRunning
  rw [running_served _ hmem hrow hqueued]
  simp only [decide_eq_true_eq]
  exact if_congr eq_comm rfl rfl

end

end

/-! ## Runs of claims -/

/-- Owners with work left are in balance, so are the jobs of each of them, and what runs
stands before what is queued. -/
structure Fair (s : Store) : Prop where
  owners : Balanced (fun o => ∃ j, Waiting s j ∧ (s.job j).ownerId = o) (ownerCount s)
  jobs : ∀ o, Balanced (fun j => Waiting s j ∧ (s.job j).ownerId = o) s.jobRunning
  rows : ∀ j d d', .row j d ∈ s.rows → .row j d' ∈ s.rows → (s.row j d).state = .running →
    (s.row j d').state = .queued → (s.row j d).seq ≤ (s.row j d').seq

section

variable {s s' : System} {a : Action}

theorem NoneRunning.fair (h : NoneRunning s) : Fair s.store := by
  have hnone : ∀ j d, .row j d ∈ s.store.rows → (s.store.row j d).state ≠ .running := by
    intro j d hrow hrunning
    have hnot := Finset.eq_empty_iff_forall_notMem.mp h (.row j d)
    rw [Store.row_mem_rowsWhere] at hnot
    exact hnot ⟨hrow, by simp [hrunning]⟩
  have hzero : ∀ which, s.store.running which = 0 := by
    intro which
    rw [Store.running, Finset.card_eq_zero, Finset.eq_empty_iff_forall_notMem]
    intro k hk
    obtain ⟨j, d, rfl, -⟩ := Store.mem_rowsWhere.mp hk
    rw [row_mem_running] at hk
    exact hnone j d hk.1 hk.2.2.2
  exact ⟨.of_zero fun o => hzero _, fun o => .of_zero fun j => hzero _,
    fun j d _ hrow _ hrunning => absurd hrunning (hnone j d hrow)⟩

theorem Fair.served {s : Store} {now : Time} {j : JobId} {d : Str} (h : Fair s) (tok : Str)
    (hmem : .job j ∈ s.rows) (hnext : s.NextRow now j d) (havailable : AllAvailable s now)
    (hleast : ∀ j', Waiting s j' → s.ownerRunning j ≤ s.ownerRunning j' ∧
      (s.ownerRunning j = s.ownerRunning j' → s.jobRunning j ≤ s.jobRunning j')) :
    Fair (served s now tok j d) := by
  obtain ⟨hclaimable, hlow⟩ := hnext
  rw [Store.claimableRows, Store.row_mem_rowsWhere] at hclaimable
  simp only [JobDomain.claimable, Bool.and_eq_true, decide_eq_true_eq, true_and] at hclaimable
  obtain ⟨hrow, hqueued, -⟩ := hclaimable
  constructor
  case owners =>
    refine h.owners.raise ?_ ?_ fun o _ => ownerCount_served hmem hrow hqueued
    · rintro _ ⟨j', hwaiting, rfl⟩
      exact (hleast j' hwaiting).1
    · rintro o ⟨j', hwaiting, howner⟩
      exact ⟨j', hwaiting.of_served, by rwa [served_ownerId] at howner⟩
  case jobs =>
    intro o
    by_cases ho : (s.job j).ownerId = o
    · subst ho
      refine (h.jobs (s.job j).ownerId).raise ?_ ?_ fun j' _ =>
        jobRunning_served hmem hrow hqueued
      · rintro j' ⟨hwaiting, howner⟩
        exact (hleast j' hwaiting).2 (by rw [ownerRunning_eq, ownerRunning_eq, howner])
      · rintro j' ⟨hwaiting, howner⟩
        exact ⟨hwaiting.of_served, by rwa [served_ownerId] at howner⟩
    · refine (h.jobs o).mono ?_ ?_
      · rintro j' ⟨hwaiting, howner⟩
        exact ⟨hwaiting.of_served, by rwa [served_ownerId] at howner⟩
      · rintro j' ⟨hwaiting, howner⟩
        rw [served_ownerId] at howner
        rw [jobRunning_served hmem hrow hqueued, if_neg]
        rintro rfl
        exact ho howner
  case rows =>
    intro j₁ d₁ d₂ hrow₁ hrow₂ hrunning hqueued₂
    rw [seq_served, seq_served]
    replace hqueued₂ := (queued_of_served hqueued₂).1
    rcases running_of_served hrunning with ⟨rfl, rfl⟩ | hrunning
    · refine hlow (.row j₁ d₂) ?_ d₂ rfl
      rw [Store.claimableRows, Store.row_mem_rowsWhere]
      exact ⟨hrow₂, by simp [JobDomain.claimable, hqueued₂, havailable.le hrow₂ hqueued₂]⟩
    · exact h.rows j₁ d₁ d₂ hrow₁ hrow₂ hrunning hqueued₂

theorem Fair.step (h : Fair s.store) (hok : OnlyClaims s a) (hstep : OpStep s a s') :
    Fair s'.store := by
  obtain ⟨henabled, rfl⟩ := opStep_cases hstep
  obtain ⟨hclaim, havailable⟩ := hok
  obtain ⟨now, op⟩ := a
  cases op with
  | claim worker tries =>
    have hchoices : ClaimChoices s.store now tries := henabled.2.2
    rcases claim_first worker hchoices with ⟨-, hnone⟩ | ⟨t, rest, rfl, hnext, hstore, -⟩
    · simpa only [Op.apply, hnone] using h
    · have hpick := hchoices.1
      have hmem : .job t.jobId ∈ s.store.rows :=
        (Waiting.of_pickable (hpick.2.2.1 t.jobId (by simp))).1
      simp only [Op.apply, hstore]
      exact h.served _ hmem hnext havailable fun j' hwaiting =>
        PickJobs.first hpick (hwaiting.pickable havailable)
  | _ => simp [Op.isClaim] at hclaim

end

/-- However many claims are made from a store without running rows: two owners with a
claimable row left differ by one running row at most, so do two jobs of one owner, the rows
claimed from a job are its first ones, and a claim that returns nothing finds no job to
claim from. -/
theorem claims_are_fair {h : List (System × Action)} {s : System}
    (hrun : Transition.Run NoneRunning OpStep h s) (hclaims : Transition.Guarded OnlyClaims h) :
    (∀ now j j', s.store.pickable now j = true → s.store.pickable now j' = true →
      s.store.ownerRunning j ≤ s.store.ownerRunning j' + 1) ∧
    (∀ now j j', s.store.pickable now j = true → s.store.pickable now j' = true →
      (s.store.job j).ownerId = (s.store.job j').ownerId →
      s.store.jobRunning j ≤ s.store.jobRunning j' + 1) ∧
    (∀ j d d', .row j d ∈ s.store.rows → .row j d' ∈ s.store.rows →
      (s.store.row j d).state = .running → (s.store.row j d').state = .queued →
      (s.store.row j d).seq ≤ (s.store.row j d').seq) ∧
    ∀ now worker tries s', OpStep s ⟨now, .claim worker tries⟩ s' →
      (claim s.store now worker tries).2 = none → ∀ j, s.store.pickable now j = false := by
  have hfair : Fair s.store := hrun.invariant (I := fun s => Fair s.store)
    (fun _ hs => hs.fair) (fun _ _ _ hs hok hstep => hs.step hok hstep) hclaims
  refine ⟨?_, ?_, hfair.rows, ?_⟩
  · intro now j j' hj hj'
    exact hfair.owners _ _ ⟨j, .of_pickable hj, rfl⟩ ⟨j', .of_pickable hj', rfl⟩
  · intro now j j' hj hj' howner
    exact hfair.jobs _ j j' ⟨.of_pickable hj, howner⟩ ⟨.of_pickable hj', rfl⟩
  · intro now worker tries s' hstep hnone j
    obtain ⟨henabled, -⟩ := opStep_cases hstep
    rcases claim_first worker henabled.2.2 with ⟨rfl, -⟩ | ⟨_, _, _, _, _, hsome⟩
    · obtain ⟨⟨-, -, -, -, hrest⟩, -⟩ := henabled.2.2
      rw [Bool.eq_false_iff]
      intro hpick
      have hfull := hrest (.job j) (Waiting.of_pickable hpick).1 j rfl hpick (by simp)
      simp at hfull
    · simp [hnone] at hsome

namespace TwoOwners

/-- Job 0 and job 1 belong to two persons, and each has two rows to do. -/
def store : Store where
  rows := {.job 0, .job 1, .row 0 "a".toList, .row 0 "b".toList, .row 1 "c".toList,
    .row 1 "d".toList}
  val
    | .job j => ({ createdAt := 0, ownerId := some j } : Job)
    | .row _ d =>
      ({ seq := if d = "a".toList ∨ d = "c".toList then 0 else 1, availableAt := 0 } : JobDomain)
    | .domain _ => ({ updatedAt := 0 } : DomainRow)

def schedule : List Action :=
  [⟨1, .claim "w".toList [⟨0, "x".toList, "a".toList⟩, ⟨1, "x".toList, "c".toList⟩]⟩,
    ⟨2, .claim "w".toList [⟨1, "y".toList, "c".toList⟩, ⟨0, "y".toList, "b".toList⟩]⟩]

end TwoOwners

/-- After one claim of the first person's job and one of the second's they are even. -/
theorem two_owners_share : ∃ h s, Transition.Run NoneRunning OpStep h s ∧
    Transition.Guarded OnlyClaims h ∧ s.store.pickable 3 0 = true ∧
    s.store.pickable 3 1 = true ∧ s.store.ownerRunning 0 = 1 ∧
    s.store.ownerRunning 1 ≤ s.store.ownerRunning 0 + 1 := by
  obtain ⟨h, s, hrun, hok, h0, h1, hcount⟩ := Transition.Run.exists_of_exec NoneRunning opStep
    ⟨TwoOwners.store, []⟩ (by unfold NoneRunning; decide) TwoOwners.schedule
    (fun p => (∀ q ∈ p.1, OnlyClaims q.1 q.2) ∧ p.2.store.pickable 3 0 = true ∧
      p.2.store.pickable 3 1 = true ∧ p.2.store.ownerRunning 0 = 1)
    (by decide +kernel)
  exact ⟨h, s, hrun, hok, h0, h1, hcount, (claims_are_fair hrun hok).1 3 1 0 h1 h0⟩

end Queue

end EmailExtractor
