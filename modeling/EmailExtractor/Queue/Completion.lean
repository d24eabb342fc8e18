import EmailExtractor.Library.LastOut
import EmailExtractor.Queue.Transactions

/-!
# The claims that finish a job's last rows complete it once

Any number of claims finish the last rows of a job together, while
`complete_finished_jobs` sweeps by. Each `finish` locks the job before it looks
for live rows, so the finishers pass one at a time: `stages` maps a state of the
database machine to the protocol of `LastOut`, where the lock on the job is the
door and committing is leaving. The sweeps never see the job finished before a
finisher has completed it.
-/

namespace EmailExtractor

namespace Queue

open ReadCommitted
open Function (update update_self update_of_ne update_eq_self_iff)
open LastOut.Stage (inside isGone)

structure FinishCall where
  now : Time
  claim : Claim
  result : DomainResult
  fromCache : Bool
  writeCache : Bool

section

variable {ι κ : Type}

/-- The finishers and the sweeps. -/
def crowd (f : ι → FinishCall) (sweep : κ → Time) : ι ⊕ κ → Txn
  | .inl i => .finish (f i).now (f i).claim (f i).result (f i).fromCache (f i).writeCache
  | .inr k => .completeFinishedJobs (sweep k)

/-- The job is running, and its only live rows are the running rows owned by the
finishers, one each. -/
structure LastRows (rows : Finset Key) (db : Db Val) (j : JobId) (f : ι → FinishCall) :
    Prop where
  job_mem : Key.job j ∈ rows
  running : (jobAt db j).status = .running
  job_eq : ∀ i, (f i).claim.jobId = j
  row_mem : ∀ i, Key.row j (f i).claim.domain ∈ rows
  owner : ∀ i, JobDomain.heldBy (f i).claim.token (db (.row j (f i).claim.domain)) = true
  distinct : ∀ i i', (f i).claim.domain = (f i').claim.domain → i = i'
  others : ∀ d, Key.row j d ∈ rows → JobDomain.live (db (.row j d)) = true →
    ∃ i, d = (f i).claim.domain

/-- Where a finisher is, seen from the lock on the job. -/
def stage (j : JobId) (x : Session Val Pc) : LastOut.Stage :=
  match x.pc, x.active with
  | .lockJob, some a => if .job j ∈ a.todo then .waiting else .holding
  | .completeJob, none => .holding
  | .completeJob, some a =>
    if .job j ∈ a.todo then .chosen else .decided (decide (a.touched ≠ []))
  | .commitFinish b, _ => .decided b
  | .finished (.finish _ b), _ => .gone b
  | _, _ => .waiting

def rowTaken (x : Session Val Pc) : Bool :=
  match x.pc, x.active with
  | .ownRow, some a => decide (a.touched ≠ [])
  | .writeCache, _ => true
  | .unlockDomain, _ => true
  | .lockJob, _ => true
  | .completeJob, _ => true
  | .commitFinish _, _ => true
  | _, _ => false

/-- A finisher that owns its row, and what its statement has still to visit. -/
def OnPath (c : Claim) (x : Session Val Pc) : Prop :=
  match x.pc, x.active with
  | .ownRow, some a => a.touched = [] → .row c.jobId c.domain ∈ a.todo
  | .ownRow, none => True
  | .writeCache, _ => True
  | .unlockDomain, _ => True
  | .lockJob, _ => True
  | .completeJob, _ => True
  | .commitFinish _, _ => True
  | .finished (.finish true _), _ => True
  | _, _ => False

def stages (j : JobId) (s : Sys Val (ι ⊕ κ) Pc) : ι → LastOut.Stage :=
  fun i => stage j (s.session (.inl i))

variable [DecidableEq ι]

/-- The row `d` of the finisher `i`. -/
structure RowInv (db : Db Val) (j : JobId) (d : Str) (i : ι) (s : Sys Val (ι ⊕ κ) Pc) : Prop where
  held : ∀ t v, s.held (.row j d) = some (t, v) →
    t = .inl i ∧ JobDomain.live v = false ∧ rowTaken (s.session (.inl i)) = true
  taken : rowTaken (s.session (.inl i)) = true → ∃ v, s.held (.row j d) = some (.inl i, v)
  running : (stages j s i).isGone = false → s.committed (.row j d) = db (.row j d)
  done : (stages j s i).isGone = true → JobDomain.live (s.committed (.row j d)) = false

structure JobInv (j : JobId) (s : Sys Val (ι ⊕ κ) Pc) : Prop where
  held : ∀ t v, s.held (.job j) = some (t, v) →
    ∃ i, t = .inl i ∧ (stages j s i).inside = true ∧
      Job.status v = if stages j s i = .decided true then .done else .running
  inside : ∀ i, (stages j s i).inside = true → ∃ v, s.held (.job j) = some (.inl i, v)
  running : ∀ i, (stages j s i).isGone = false → (jobAt s.committed j).status = .running
  done : (∀ i, (stages j s i).isGone = true) → (jobAt s.committed j).status = .done

structure LastInv (rows : Finset Key) (db : Db Val) (j : JobId) (f : ι → FinishCall)
    (s : Sys Val (ι ⊕ κ) Pc) : Prop where
  refines : ∃ h, Transition.Run LastOut.Init LastOut.Step h (stages j s)
  on_path : ∀ i, OnPath (f i).claim (s.session (.inl i))
  row : ∀ i, RowInv db j (f i).claim.domain i s
  other : ∀ d, (∀ i, d ≠ (f i).claim.domain) → s.held (.row j d) = none ∧
    (Key.row j d ∈ rows → JobDomain.live (s.committed (.row j d)) = false)
  job : JobInv j s
  sweep_waits : ∀ k, (s.session (.inr k)).pc = .sweepJobs →
    ¬ (s.session (.inr k)).Awaits (.job j)

variable {rows : Finset Key} {db : Db Val} {j : JobId} {f : ι → FinishCall}
  {sweep : κ → Time} {s s' : Sys Val (ι ⊕ κ) Pc} {t : ι ⊕ κ} {i : ι} {k : κ} {b : Bool}
  {x : Session Val Pc} {st : Stmt Val} {a : Active Val}

def Key.ofJob (j : JobId) (k : Key) : Prop := k = .job j ∨ ∃ d, k = .row j d

theorem LastInv.lastOut [Nonempty ι] (hinv : LastInv rows db j f s) : LastOut.Inv (stages j s) := by
  obtain ⟨h, hrun⟩ := hinv.refines
  exact LastOut.Inv.of_run hrun

omit [DecidableEq ι] in
theorem RowInv.congr {d : Str} (h : RowInv db j d i s)
    (hheld : s'.held (.row j d) = s.held (.row j d))
    (hcom : s'.committed (.row j d) = s.committed (.row j d))
    (htaken : rowTaken (s'.session (.inl i)) = rowTaken (s.session (.inl i)))
    (hgone : (stages j s' i).isGone = (stages j s i).isGone) : RowInv db j d i s' := by
  constructor
  case held => rw [hheld, htaken]; exact h.held
  case taken => rw [hheld, htaken]; exact h.taken
  case running => rw [hcom, hgone]; exact h.running
  case done => rw [hcom, hgone]; exact h.done

omit [DecidableEq ι] in
theorem JobInv.congr (h : JobInv j s) (hheld : s'.held (.job j) = s.held (.job j))
    (hcom : s'.committed (.job j) = s.committed (.job j)) (hstages : stages j s' = stages j s) :
    JobInv j s' := by
  have hjob : jobAt s'.committed j = jobAt s.committed j := hcom
  constructor
  case held => rw [hheld, hstages]; exact h.held
  case inside => rw [hheld, hstages]; exact h.inside
  case running => rw [hjob, hstages]; exact h.running
  case done => rw [hjob, hstages]; exact h.done

variable [DecidableEq κ]

theorem stages_update (hsession : s'.session = update s.session (.inl i) x) :
    stages j s' = update (stages j s) i (stage j x) := by
  funext i'
  unfold stages
  rw [hsession]
  by_cases h : i' = i
  · subst h
    rw [update_self, update_self]
  · rw [update_of_ne h, update_of_ne (by simpa using h)]

omit [DecidableEq ι] [DecidableEq κ] in
theorem sweep_exec {pc : Pc} (hact : (machine rows (crowd f sweep)).act (.inr k) pc = .exec st) :
    pc = .sweepJobs ∧ st = completeJobs rows (sweep k) := by
  cases pc with
  | sweepJobs =>
    cases hact
    exact ⟨rfl, rfl⟩
  | _ => simp [machine, crowd, Txn.act] at hact

section

variable (hinv : LastInv rows db j f s)

include hinv

/-! ## What a session sees of the job -/

theorem LastInv.view_job_of_outside (hout : ∀ i, t = .inl i → (stages j s i).inside = false) :
    s.view t (.job j) = s.committed (.job j) := by
  apply Sys.view_of_not_held
  intro v hv
  obtain ⟨i, rfl, hins, _⟩ := hinv.job.held t v hv
  simp [hout i rfl] at hins

omit [DecidableEq κ] in
theorem LastInv.held_row {d : Str} {v : Val (.row j d)} (hv : s.held (.row j d) = some (t, v)) :
    ∃ i, t = .inl i ∧ d = (f i).claim.domain := by
  by_cases hother : ∃ i, d = (f i).claim.domain
  · obtain ⟨i, rfl⟩ := hother
    exact ⟨i, ((hinv.row i).held t v hv).1, rfl⟩
  · rw [(hinv.other d (not_exists.mp hother)).1] at hv
    cases hv

theorem LastInv.view_row_of_ne {d : Str} (hne : ∀ i, t = .inl i → d ≠ (f i).claim.domain) :
    s.view t (.row j d) = s.committed (.row j d) := by
  apply Sys.view_of_not_held
  intro v hv
  obtain ⟨i, ht, hd⟩ := hinv.held_row hv
  exact hne i ht hd

theorem LastInv.view_own_row (hno : rowTaken (s.session (.inl i)) = false) :
    s.view (.inl i) (.row j (f i).claim.domain) =
      s.committed (.row j (f i).claim.domain) := by
  apply Sys.view_of_not_held
  intro v hv
  have htaken := ((hinv.row i).held _ v hv).2.2
  simp [hno] at htaken

theorem LastInv.live_of_not_gone (hlast : LastRows rows db j f) (ht : t ≠ .inl i)
    (hi : (stages j s i).isGone = false) : hasLive rows (s.view t) j = true := by
  rw [hasLive_eq_true]
  refine ⟨_, hlast.row_mem i, ?_⟩
  have hview : s.view t (.row j (f i).claim.domain) =
      s.committed (.row j (f i).claim.domain) := by
    apply hinv.view_row_of_ne
    intro i' hi' hd
    rw [hi', hlast.distinct i i' hd] at ht
    exact ht rfl
  have howner := hlast.owner i
  rw [hview, (hinv.row i).running hi]
  simp only [JobDomain.heldBy, Bool.and_eq_true, decide_eq_true_eq] at howner
  simp [JobDomain.live, howner.1]

/-- A finisher that has taken its row sees a live row only if another finisher has
not left. -/
theorem LastInv.not_gone_of_live (htaken : rowTaken (s.session (.inl i)) = true)
    (hlive : hasLive rows (s.view (.inl i)) j = true) :
    ∃ i', i' ≠ i ∧ (stages j s i').isGone = false := by
  rw [hasLive_eq_true] at hlive
  obtain ⟨d, hd, hlive⟩ := hlive
  by_cases hown : d = (f i).claim.domain
  · subst hown
    obtain ⟨v, hv⟩ := (hinv.row i).taken htaken
    rw [Sys.view_of_held hv, ((hinv.row i).held _ v hv).2.1] at hlive
    simp at hlive
  · have hview : s.view (.inl i) (.row j d) = s.committed (.row j d) := by
      apply hinv.view_row_of_ne
      rintro _ ⟨rfl⟩
      exact hown
    rw [hview] at hlive
    by_cases hother : ∃ i', d = (f i').claim.domain
    · obtain ⟨i', rfl⟩ := hother
      refine ⟨i', ?_, ?_⟩
      · rintro rfl
        exact hown rfl
      · cases hgone : (stages j s i').isGone with
        | false => rfl
        | true => simp [(hinv.row i').done hgone] at hlive
    · rw [(hinv.other d (not_exists.mp hother)).2 hd] at hlive
      simp at hlive

theorem LastInv.job_version (hinside : (stages j s i).inside = true) :
    ∃ v, s.held (.job j) = some (.inl i, v) ∧ s.view (.inl i) (.job j) = v ∧
      Job.status v = if stages j s i = .decided true then .done else .running := by
  obtain ⟨v, hv⟩ := hinv.job.inside i hinside
  obtain ⟨i', hi', _, hstatus⟩ := hinv.job.held _ v hv
  cases hi'
  exact ⟨v, hv, Sys.view_of_held hv, hstatus⟩

theorem LastInv.commit_row (hpc : (s.session (.inl i)).pc = .commitFinish b) :
    JobDomain.live ((s.commit (.inl i)).committed (.row j (f i).claim.domain)) = false ∧
      ∀ d, d ≠ (f i).claim.domain →
        (s.commit (.inl i)).committed (.row j d) = s.committed (.row j d) := by
  obtain ⟨r, hr⟩ := (hinv.row i).taken (by simp [rowTaken, hpc])
  have hlive := ((hinv.row i).held _ r hr).2.1
  have heq : (s.commit (.inl i)).committed (.row j (f i).claim.domain) = r := Sys.view_of_held hr
  refine ⟨heq ▸ hlive, fun d hd => hinv.view_row_of_ne ?_⟩
  rintro _ ⟨rfl⟩
  exact hd

theorem LastInv.commit_job (hpc : (s.session (.inl i)).pc = .commitFinish b) :
    (jobAt (s.commit (.inl i)).committed j).status = (if b then .done else .running) ∧
      ∀ t v, s.held (.job j) = some (t, v) → t = .inl i := by
  have hi : stages j s i = .decided b := by simp [stages, stage, hpc]
  obtain ⟨v, hv, hview, hstatus⟩ := hinv.job_version (i := i) (by simp [hi, inside])
  have hjob : jobAt (s.commit (.inl i)).committed j = v := hview
  refine ⟨?_, fun t w hw => ?_⟩
  · rw [hjob, hstatus, hi]
    cases b <;> rfl
  · rw [hv] at hw
    cases hw
    rfl

/-! ## Steps of a sweep and of a finisher -/

theorem LastInv.step_of_sweep (hcom : ∀ k, k.ofJob j → s'.committed k = s.committed k)
    (hheld : ∀ k, k.ofJob j → s'.held k = s.held k)
    (hsession : s'.session = update s.session (.inr k) x)
    (hx : x.pc = .sweepJobs → ¬ x.Awaits (.job j)) : LastInv rows db j f s' := by
  have hfinisher : ∀ i, s'.session (.inl i) = s.session (.inl i) := by
    intro i
    rw [hsession, update_of_ne (by simp)]
  have hstages : stages j s' = stages j s := funext fun i => congrArg (stage j) (hfinisher i)
  constructor
  case refines => rw [hstages]; exact hinv.refines
  case on_path => simpa only [hfinisher] using hinv.on_path
  case row =>
    intro i
    refine (hinv.row i).congr (hheld _ (.inr ⟨_, rfl⟩)) (hcom _ (.inr ⟨_, rfl⟩)) ?_ ?_
    · rw [hfinisher]
    · rw [hstages]
  case other =>
    intro d
    rw [hheld _ (.inr ⟨d, rfl⟩), hcom _ (.inr ⟨d, rfl⟩)]
    exact hinv.other d
  case job => exact hinv.job.congr (hheld _ (.inl rfl)) (hcom _ (.inl rfl)) hstages
  case sweep_waits =>
    intro k'
    rw [hsession]
    by_cases h : k' = k
    · subst h
      rwa [update_self]
    · rw [update_of_ne (by simpa using h)]
      exact hinv.sweep_waits k'

section

variable (hlast : LastRows rows db j f)

include hlast

/-- A step of the finisher `i` that leaves the other rows of the job alone. -/
theorem LastInv.step_of_finisher (hsession : s'.session = update s.session (.inl i) x)
    (hrefines : ∃ h, Transition.Run LastOut.Init LastOut.Step h (stages j s'))
    (hpath : OnPath (f i).claim x) (hrows : ∀ d, d ≠ (f i).claim.domain →
      s'.held (.row j d) = s.held (.row j d) ∧ s'.committed (.row j d) = s.committed (.row j d))
    (hrow : RowInv db j (f i).claim.domain i s') (hjob : JobInv j s') :
    LastInv rows db j f s' := by
  have hother : ∀ t, t ≠ .inl i → s'.session t = s.session t := by
    intro t ht
    rw [hsession, update_of_ne ht]
  constructor
  case refines => exact hrefines
  case on_path =>
    intro i'
    by_cases h : i' = i
    · subst h
      rwa [hsession, update_self]
    · rw [hother _ (by simpa using h)]
      exact hinv.on_path i'
  case row =>
    intro i'
    by_cases h : i' = i
    · subst h
      exact hrow
    · have hsame := hother (.inl i') (by simpa using h)
      obtain ⟨hheld, hcom⟩ := hrows _ fun hd => h (hlast.distinct i' i hd)
      refine (hinv.row i').congr hheld hcom ?_ ?_
      · rw [hsame]
      · rw [stages, hsame, stages]
  case other =>
    intro d hno
    rw [(hrows d (hno i)).1, (hrows d (hno i)).2]
    exact hinv.other d hno
  case job => exact hjob
  case sweep_waits =>
    intro k
    rw [hother _ (by simp)]
    exact hinv.sweep_waits k

theorem LastInv.stutter (hcom : ∀ k, k.ofJob j → s'.committed k = s.committed k)
    (hheld : ∀ k, k.ofJob j → s'.held k = s.held k)
    (hsession : s'.session = update s.session (.inl i) x)
    (hstage : stage j x = stage j (s.session (.inl i)))
    (htaken : rowTaken x = rowTaken (s.session (.inl i))) (hpath : OnPath (f i).claim x) :
    LastInv rows db j f s' := by
  have hstages : stages j s' = stages j s := by
    rw [stages_update hsession, hstage]
    exact update_eq_self_iff.mpr rfl
  have hrows : ∀ d, s'.held (.row j d) = s.held (.row j d) ∧
      s'.committed (.row j d) = s.committed (.row j d) :=
    fun d => ⟨hheld _ (.inr ⟨d, rfl⟩), hcom _ (.inr ⟨d, rfl⟩)⟩
  refine hinv.step_of_finisher hlast hsession (hstages ▸ hinv.refines) hpath
    (fun d _ => hrows d) ((hinv.row i).congr (hrows _).1 (hrows _).2 ?_ (by rw [hstages]))
    (hinv.job.congr (hheld _ (.inl rfl)) (hcom _ (.inl rfl)) hstages)
  rw [hsession, update_self, htaken]

theorem LastInv.setSession_finisher (hstage : stage j x = stage j (s.session (.inl i)))
    (htaken : rowTaken x = rowTaken (s.session (.inl i))) (hpath : OnPath (f i).claim x) :
    LastInv rows db j f (s.setSession (.inl i) x) :=
  hinv.stutter hlast (fun _ _ => rfl) (fun _ _ => rfl) rfl hstage htaken hpath

theorem LastInv.take_row (hpc : (s.session (.inl i)).pc = .ownRow)
    (hdead : ∀ r, JobDomain.live (st.set a.snap (.row j (f i).claim.domain) r) = false)
    (hstage : stage j (s.session (.inl i)) = .waiting) :
    LastInv rows db j f (s.hit (.inl i) st a (.row j (f i).claim.domain)) := by
  set s' := s.hit (.inl i) st a (.row j (f i).claim.domain) with hs'
  have hsession : s'.session = update s.session (.inl i) _ := rfl
  have hstages : stages j s' = stages j s := by
    rw [stages_update hsession, update_eq_self_iff]
    unfold stages
    rw [hstage]
    simp [stage, hpc]
  have hself : rowTaken (s'.session (.inl i)) = true := by
    simp [hs', Sys.session_hit_self, rowTaken, hpc]
  refine hinv.step_of_finisher hlast hsession (hstages ▸ hinv.refines) ?_ ?_ ?_
    (hinv.job.congr (Sys.held_hit_of_ne (by simp)) rfl hstages)
  · simp [OnPath, hpc]
  · exact fun d hd => ⟨Sys.held_hit_of_ne (by simpa using hd), rfl⟩
  · constructor
    case held =>
      intro t v hv
      rw [hs', Sys.held_hit_self] at hv
      cases hv
      exact ⟨rfl, hdead _, hself⟩
    case taken => exact fun _ => ⟨_, Sys.held_hit_self⟩
    case running => rw [hstages]; exact (hinv.row i).running
    case done => rw [hstages]; exact (hinv.row i).done

/-- The finisher makes a step at the door: it takes the lock on the job, or looks
for live rows, or completes the job. -/
theorem LastInv.at_door {y : LastOut.Stage}
    (hcom : s'.committed = s.committed) (hrows : ∀ d, s'.held (.row j d) = s.held (.row j d))
    (hsession : s'.session = update s.session (.inl i) x) (hy : stage j x = y)
    (hstep : LastOut.Step (stages j s) i (update (stages j s) i y))
    (hold : (stages j s i).isGone = false) (hin : y.inside = true)
    (htaken : rowTaken (s.session (.inl i)) = true ∧ rowTaken x = true)
    (hpath : OnPath (f i).claim x) (hjob : ∃ v, s'.held (.job j) = some (.inl i, v) ∧
      Job.status v = if y = .decided true then .done else .running) :
    LastInv rows db j f s' := by
  subst hy
  have hne : Nonempty ι := ⟨i⟩
  have hstages := stages_update (j := j) hsession
  have hnew : (stage j x).isGone = false := by
    cases hx : stage j x <;> simp_all [inside, isGone]
  have hgone : ∀ i', (stages j s' i').isGone = (stages j s i').isGone := by
    rw [hstages]
    exact LastOut.isGone_update (hnew.trans hold.symm)
  have hself : stages j s' i = stage j x := by rw [hstages, update_self]
  have hout := hinv.lastOut.step hstep
  rw [← hstages] at hout
  obtain ⟨v, hv, hstatus⟩ := hjob
  obtain ⟨h, hrun⟩ := hinv.refines
  refine hinv.step_of_finisher hlast hsession ⟨_, hstages ▸ hrun.next hstep⟩ hpath
    (fun d _ => ⟨hrows d, by rw [hcom]⟩)
    ((hinv.row i).congr (hrows _) (by rw [hcom]) ?_ (hgone i)) ?_
  · rw [hsession, update_self, htaken.1, htaken.2]
  · constructor
    case held =>
      intro t w hw
      rw [hv] at hw
      cases hw
      exact ⟨i, rfl, by rw [hself]; exact hin, by rw [hself]; exact hstatus⟩
    case inside =>
      intro i' hi'
      rw [hout.one_inside i' i hi' (by rw [hself]; exact hin)]
      exact ⟨v, hv⟩
    case running => simpa only [hgone, hcom] using hinv.job.running
    case done => simpa only [hgone, hcom] using hinv.job.done

theorem LastInv.leave (hpc : (s.session (.inl i)).pc = .commitFinish b) :
    LastInv rows db j f ((s.commit (.inl i)).setSession (.inl i)
      ⟨.finished (.finish true b), none⟩) := by
  have hne : Nonempty ι := ⟨i⟩
  have hlastOut := hinv.lastOut
  set s' := (s.commit (.inl i)).setSession (.inl i) ⟨.finished (.finish true b), none⟩
    with hs'
  have hsession : s'.session = update s.session (.inl i) _ := rfl
  have hstages : stages j s' = update (stages j s) i (.gone b) :=
    stages_update hsession
  have hi : stages j s i = .decided b := by simp [stages, stage, hpc]
  have hself : stages j s' i = .gone b := by rw [hstages, update_self]
  have hstage : ∀ i', i' ≠ i → stages j s' i' = stages j s i' := by
    intro i' h
    rw [hstages, update_of_ne h]
  obtain ⟨hdead, hrow⟩ : JobDomain.live (s'.committed (.row j (f i).claim.domain)) = false ∧
      ∀ d, d ≠ (f i).claim.domain → s'.committed (.row j d) = s.committed (.row j d) :=
    hinv.commit_row hpc
  obtain ⟨hstatus, hheld⟩ : (jobAt s'.committed j).status = (if b then .done else .running) ∧
      ∀ t v, s.held (.job j) = some (t, v) → t = .inl i := hinv.commit_job hpc
  obtain ⟨h, hrun⟩ := hinv.refines
  refine hinv.step_of_finisher hlast hsession ⟨_, hstages ▸ hrun.next (.leave hi)⟩ trivial ?_ ?_ ?_
  · intro d hd
    refine ⟨Sys.release_of_not_held fun v hv => ?_, hrow d hd⟩
    obtain ⟨_, ⟨⟩, rfl⟩ := hinv.held_row hv
    exact hd rfl
  · constructor
    case held =>
      intro t w hw
      have ht : t ≠ .inl i := Sys.ne_of_release hw
      exact absurd ((hinv.row i).held t w ((Sys.held_commit_of_ne ht).mp hw)).1 ht
    case taken =>
      rw [hsession, update_self]
      simp [rowTaken]
    case running => simp [hself, isGone]
    case done => exact fun _ => hdead
  · constructor
    case held =>
      intro t w hw
      have ht : t ≠ .inl i := Sys.ne_of_release hw
      exact absurd (hheld t w ((Sys.held_commit_of_ne ht).mp hw)) ht
    case inside =>
      intro i' hi'
      by_cases h : i' = i
      · subst h
        simp [hself, inside] at hi'
      · rw [hstage i' h] at hi'
        exact absurd (hlastOut.one_inside i' i hi' (by simp [hi, inside])) h
    case running =>
      intro i' hi'
      have h : i' ≠ i := by
        rintro rfl
        simp [hself, isGone] at hi'
      rw [hstage i' h] at hi'
      rw [hstatus]
      cases b with
      | true => simp [hlastOut.last i (.inr hi) i' h] at hi'
      | false => simp
    case done =>
      intro hall
      rw [hstatus]
      cases b with
      | true => simp
      | false =>
        obtain ⟨i', h, hi'⟩ := hlastOut.not_last i hi
        have hgone := hall i'
        simp [hstage i' h, hi'] at hgone

/-! ## One step -/

/-- The finisher looks for live rows: its snapshot selects the job exactly when all
others have left. -/
theorem LastInv.begin_complete {now : Time}
    (hpc : (s.session (.inl i)).pc = .completeJob) (hidle : (s.session (.inl i)).active = none) :
    LastInv rows db j f (s.begin rows (.inl i)
      (completeJob rows now (f i).claim.jobId)) := by
  have hstage : stages j s i = .holding := by simp [stages, stage, hpc, hidle]
  have htaken : rowTaken (s.session (.inl i)) = true := by simp [rowTaken, hpc]
  obtain ⟨v, hv, hview, hstatus⟩ :=
    hinv.job_version (i := i) (by simp [hstage, inside])
  simp only [hstage, reduceCtorEq, if_false] at hstatus
  have hmem : Key.job j ∈ (completeJob rows now (f i).claim.jobId).selected rows
      (s.view (.inl i)) ↔ hasLive rows (s.view (.inl i)) j = false := by
    rw [Stmt.selected, Finset.mem_filter, hview]
    simp [completeJob, completeStmt, hlast.job_eq i, Job.active, hstatus, hlast.job_mem]
  have hpath : OnPath (f i).claim ⟨(s.session (.inl i)).pc, some ⟨s.view (.inl i),
      (completeJob rows now (f i).claim.jobId).selected rows (s.view (.inl i)), []⟩⟩ := by
    simp [OnPath, hpc]
  have hgone : (stages j s i).isGone = false := by simp [hstage, isGone]
  cases hlive : hasLive rows (s.view (.inl i)) j with
  | false =>
    have hstep : LastOut.Step (stages j s) i (update (stages j s) i .chosen) := by
      apply LastOut.Step.choose hstage
      intro i' hne
      cases hi' : (stages j s i').isGone with
      | true => rfl
      | false =>
        rw [hinv.live_of_not_gone hlast (by simpa using hne.symm) hi'] at hlive
        simp at hlive
    refine hinv.at_door hlast rfl (fun _ => rfl) rfl ?_ hstep hgone rfl
      ⟨htaken, by simp [rowTaken, hpc]⟩ hpath ⟨v, hv, by simpa using hstatus⟩
    simp [stage, hpc, hmem.mpr hlive]
  | true =>
    have hstep := LastOut.Step.decline hstage (hinv.not_gone_of_live htaken hlive)
    refine hinv.at_door hlast rfl (fun _ => rfl) rfl ?_ hstep hgone rfl
      ⟨htaken, by simp [rowTaken, hpc]⟩ hpath ⟨v, hv, by simpa using hstatus⟩
    have hnot := mt hmem.mp (by simp [hlive])
    simp [stage, hpc, hnot]

theorem LastInv.hit_domain {d : Str}
    (hpc : (s.session (.inl i)).pc = .writeCache ∨ (s.session (.inl i)).pc = .unlockDomain) :
    LastInv rows db j f (s.hit (.inl i) st a (.domain d)) := by
  refine hinv.stutter hlast (fun _ _ => rfl) ?_ rfl ?_ ?_ ?_
  · rintro k (rfl | ⟨d', rfl⟩) <;> exact Sys.held_hit_of_ne (by simp)
  · rcases hpc with hpc | hpc <;> simp [stage, hpc]
  · rcases hpc with hpc | hpc <;> simp [rowTaken, hpc]
  · rcases hpc with hpc | hpc <;> simp [OnPath, hpc]

section

variable
  (hact : (machine rows (crowd f sweep)).act (.inl i) (s.session (.inl i)).pc = .exec st)

include hact

theorem LastInv.start_finisher (hidle : (s.session (.inl i)).active = none) :
    LastInv rows db j f (s.begin rows (.inl i) st) := by
  have hpath := hinv.on_path i
  have hjob := hlast.job_eq i
  cases hpc : (s.session (.inl i)).pc with
  | ownRow =>
    rw [hpc] at hact
    cases hact
    have hno : rowTaken (s.session (.inl i)) = false := by simp [rowTaken, hpc, hidle]
    have hwait : (stages j s i).isGone = false := by
      simp [stages, stage, hpc, isGone]
    apply hinv.setSession_finisher hlast
    · simp [stage, hpc]
    · simp [rowTaken, hpc, hidle]
    · simp only [OnPath, hpc, Stmt.selected, Finset.mem_filter]
      intro _
      rw [hjob, hinv.view_own_row hno, (hinv.row i).running hwait]
      exact ⟨hlast.row_mem i, by simp [finishRow, Claim.owns, hjob, hlast.owner i]⟩
  | writeCache | unlockDomain =>
    apply hinv.setSession_finisher hlast
    · simp [stage, hpc]
    · simp [rowTaken, hpc]
    · simp [OnPath, hpc]
  | lockJob =>
    rw [hpc] at hact
    cases hact
    apply hinv.setSession_finisher hlast
    · simp only [stage, hpc, hidle]
      have hmem : Key.job j ∈ (lockJobStmt (f i).claim.jobId).selected rows (s.view (.inl i)) :=
        Finset.mem_filter.mpr ⟨hlast.job_mem, by simp [lockJobStmt, hjob]⟩
      rw [if_pos hmem]
    · simp [rowTaken, hpc]
    · simp [OnPath, hpc]
  | completeJob =>
    rw [hpc] at hact
    cases hact
    exact hinv.begin_complete hlast hpc hidle
  | unlockLost => simp [OnPath, hpc] at hpath
  | _ =>
    rw [hpc] at hact
    simp [machine, crowd, Txn.act] at hact

theorem LastInv.hit_finisher {k : Key}
    (hactive : (s.session (.inl i)).active = some a) (hk : k ∈ a.todo) (hfree : s.Free (.inl i) k)
    (hcond : st.cond a.snap k (s.view (.inl i) k) = true) :
    LastInv rows db j f (s.hit (.inl i) st a k) := by
  have hpath := hinv.on_path i
  have hjob := hlast.job_eq i
  cases hpc : (s.session (.inl i)).pc with
  | ownRow =>
    rw [hpc] at hact
    cases hact
    cases k with
    | row j' d =>
      simp only [finishRow, Claim.owns, onRow_cond_row, Bool.and_eq_true,
        decide_eq_true_eq] at hcond
      obtain ⟨⟨rfl, rfl⟩, _⟩ := hcond
      subst hjob
      apply hinv.take_row hlast hpc
      · intro r
        simp [finishRow, JobDomain.finished, JobDomain.live]
      · simp [stage, hpc]
    | _ => simp [finishRow] at hcond
  | writeCache =>
    rw [hpc] at hact
    cases hact
    cases k with
    | domain d => exact hinv.hit_domain hlast (.inl hpc)
    | _ => simp [writeCacheStmt] at hcond
  | unlockDomain =>
    rw [hpc] at hact
    cases hact
    cases k with
    | domain d => exact hinv.hit_domain hlast (.inr hpc)
    | _ => simp [unlockDomainStmt] at hcond
  | lockJob =>
    rw [hpc] at hact
    cases hact
    cases k with
    | job j' =>
      simp only [lockJobStmt, onJob_cond_job, decide_eq_true_eq] at hcond
      obtain rfl : j' = j := hcond.trans hjob
      have hstage : stages j' s i = .waiting := by simp [stages, stage, hpc, hactive, hk]
      have hgone : (stages j' s i).isGone = false := by simp [hstage, isGone]
      have hdoor : ∀ i', (stages j' s i').inside = false := by
        intro i'
        cases hi' : (stages j' s i').inside with
        | false => rfl
        | true =>
          obtain ⟨v, hv⟩ := hinv.job.inside i' hi'
          obtain rfl : i' = i := by simpa using hfree _ hv
          simp [hstage, inside] at hi'
      have hview : s.view (.inl i) (.job j') = s.committed (.job j') :=
        hinv.view_job_of_outside (fun i' _ => hdoor i')
      refine hinv.at_door hlast rfl ?_ rfl ?_ (.enter hstage hdoor) hgone rfl ?_ ?_ ?_
      · exact fun d => Sys.held_hit_of_ne (by simp)
      · simp [stage, hpc]
      · simp [rowTaken, hpc]
      · simp [OnPath, hpc]
      · refine ⟨_, Sys.held_hit_self, ?_⟩
        have hopen := hinv.job.running i hgone
        simpa [lockJobStmt, hview, jobAt] using hopen
    | _ => simp [lockJobStmt] at hcond
  | completeJob =>
    rw [hpc] at hact
    cases hact
    cases k with
    | job j' =>
      simp only [completeJob, completeStmt, onJob_cond_job, Bool.and_eq_true,
        decide_eq_true_eq] at hcond
      obtain rfl : j' = j := hcond.1.1.trans hjob
      have hstage : stages j' s i = .chosen := by simp [stages, stage, hpc, hactive, hk]
      have hgone : (stages j' s i).isGone = false := by simp [hstage, isGone]
      refine hinv.at_door hlast rfl ?_ rfl ?_ (.decide hstage) hgone rfl ?_ ?_ ?_
      · exact fun d => Sys.held_hit_of_ne (by simp)
      · simp [stage, hpc]
      · simp [rowTaken, hpc]
      · simp [OnPath, hpc]
      · refine ⟨_, Sys.held_hit_self, ?_⟩
        simp [completeJob, completeStmt, Job.completed]
    | _ => simp [completeJob, completeStmt] at hcond
  | unlockLost => simp [OnPath, hpc] at hpath
  | _ =>
    rw [hpc] at hact
    simp [machine, crowd, Txn.act] at hact

theorem LastInv.pass_finisher {k : Key} (hsel : Selected (machine rows (crowd f sweep)) s)
    (hactive : (s.session (.inl i)).active = some a) (hk : k ∈ a.todo)
    (hcond : st.cond a.snap k (s.view (.inl i) k) = false) :
    LastInv rows db j f (s.pass (.inl i) a k) := by
  have hpath := hinv.on_path i
  have hjob := hlast.job_eq i
  have hsnap := hsel _ st a hact hactive k hk
  cases hpc : (s.session (.inl i)).pc with
  | ownRow =>
    rw [hpc] at hact
    cases hact
    simp only [OnPath, hpc, hactive] at hpath
    apply hinv.setSession_finisher hlast
    · simp [stage, hpc]
    · simp [rowTaken, hpc, hactive]
    · simp only [OnPath, hpc, Finset.mem_erase]
      intro hnil
      refine ⟨?_, hpath hnil⟩
      rintro rfl
      have hno : rowTaken (s.session (.inl i)) = false := by
        simp [rowTaken, hpc, hactive, hnil]
      have hgone : (stages j s i).isGone = false := by
        simp [stages, stage, hpc, isGone]
      rw [hjob, hinv.view_own_row hno, (hinv.row i).running hgone] at hcond
      simp [finishRow, Claim.owns, hjob, hlast.owner i] at hcond
  | writeCache | unlockDomain =>
    apply hinv.setSession_finisher hlast
    · simp [stage, hpc]
    · simp [rowTaken, hpc]
    · simp [OnPath, hpc]
  | lockJob =>
    rw [hpc] at hact
    cases hact
    cases k with
    | job j' => simp_all [lockJobStmt]
    | _ => simp [lockJobStmt] at hsnap
  | completeJob =>
    rw [hpc] at hact
    cases hact
    cases k with
    | job j' =>
      simp only [completeJob, completeStmt, onJob_cond_job, Bool.and_eq_true,
        decide_eq_true_eq] at hsnap
      obtain rfl : j' = j := hsnap.1.1.trans hjob
      have hstage : stages j' s i = .chosen := by simp [stages, stage, hpc, hactive, hk]
      obtain ⟨v, _, hview, hstatus⟩ :=
        hinv.job_version (i := i) (by simp [hstage, inside])
      simp only [hstage, reduceCtorEq, if_false] at hstatus
      rw [hview] at hcond
      simp [completeJob, completeStmt, hjob, Job.active, hstatus, hsnap.2] at hcond
    | _ => simp [completeJob, completeStmt] at hsnap
  | unlockLost => simp [OnPath, hpc] at hpath
  | _ =>
    rw [hpc] at hact
    simp [machine, crowd, Txn.act] at hact

theorem LastInv.stop_finisher
    (hactive : (s.session (.inl i)).active = some a) (hempty : a.todo = ∅) :
    LastInv rows db j f (s.setSession (.inl i)
      ⟨(machine rows (crowd f sweep)).next (.inl i) (s.session (.inl i)).pc a.touched, none⟩) := by
  have hpath := hinv.on_path i
  cases hpc : (s.session (.inl i)).pc with
  | ownRow =>
    simp only [OnPath, hpc, hactive, hempty] at hpath
    have hne : a.touched ≠ [] := by simpa using hpath
    have hnext : (machine rows (crowd f sweep)).next (.inl i) .ownRow a.touched = .writeCache ∨
        (machine rows (crowd f sweep)).next (.inl i) .ownRow a.touched = .unlockDomain := by
      simp only [machine, crowd, Txn.next, if_neg hne]
      split <;> simp
    rcases hnext with hnext | hnext <;> rw [hnext] <;>
      apply hinv.setSession_finisher hlast <;>
      simp [stage, rowTaken, OnPath, hpc, hactive, hne]
  | unlockLost => simp [OnPath, hpc] at hpath
  | writeCache | unlockDomain | lockJob | completeJob =>
    apply hinv.setSession_finisher hlast <;>
      simp [machine, Txn.next, stage, rowTaken, OnPath, hpc, hactive, hempty]
  | _ =>
    rw [hpc] at hact
    simp [machine, crowd, Txn.act] at hact

end

theorem LastInv.sweep_cond {now : Time} :
    (completeJobs rows now).cond (s.view (.inr k)) (.job j)
      (s.view (.inr k) (.job j)) = false := by
  rw [hinv.view_job_of_outside (by simp)]
  by_cases hall : ∀ i, (stages j s i).isGone = true
  · have hdone := hinv.job.done hall
    unfold jobAt at hdone
    simp [completeJobs, completeStmt, Job.active, hdone]
  · simp only [not_forall, Bool.not_eq_true] at hall
    obtain ⟨i, hi⟩ := hall
    have hlive := hinv.live_of_not_gone hlast (t := .inr k) (by simp) hi
    simp [completeJobs, completeStmt, hlive]

theorem LastInv.step_sweep {m : Move Key}
    (hstep : Step (machine rows (crowd f sweep)) rows s (.inr k, m) s') :
    LastInv rows db j f s' := by
  have hfree : ∀ k', k'.ofJob j → ∀ v, s.held k' ≠ some (.inr k, v) := by
    rintro k' (rfl | ⟨d, rfl⟩) v hv
    · obtain ⟨_, ht, _⟩ := hinv.job.held _ v hv
      cases ht
    · obtain ⟨_, ht, -⟩ := hinv.held_row hv
      cases ht
  cases hstep with
  | @start _ st hact hidle =>
    refine hinv.step_of_sweep (fun _ _ => rfl) (fun _ _ => rfl) rfl ?_
    intro _
    obtain ⟨_, rfl⟩ := sweep_exec hact
    rw [Session.awaits_some, Stmt.selected, Finset.mem_filter, hinv.sweep_cond hlast]
    simp
  | @hit _ st a k' hact hactive hk _ hcond =>
    obtain ⟨hpc, rfl⟩ := sweep_exec hact
    have hwaits := hinv.sweep_waits k hpc
    have hne : ∀ k1, k1.ofJob j → k1 ≠ k' := by
      rintro k1 (rfl | ⟨d, rfl⟩) rfl
      · exact hwaits ⟨a, hactive, hk⟩
      · simp [completeJobs, completeStmt] at hcond
    refine hinv.step_of_sweep (fun _ _ => rfl) ?_ rfl ?_
    · exact fun k1 hk1 => Sys.held_hit_of_ne (hne k1 hk1)
    · intro _ hawaits
      rw [Session.awaits_some] at hawaits
      exact hwaits ⟨a, hactive, Finset.mem_of_mem_erase hawaits⟩
  | @pass _ st a k' hact hactive hk _ hcond =>
    refine hinv.step_of_sweep (fun _ _ => rfl) (fun _ _ => rfl) rfl ?_
    intro hpc hawaits
    rw [Session.awaits_some] at hawaits
    exact hinv.sweep_waits k hpc ⟨a, hactive, Finset.mem_of_mem_erase hawaits⟩
  | stop hact hactive hempty =>
    refine hinv.step_of_sweep (fun _ _ => rfl) (fun _ _ => rfl) rfl ?_
    intro _
    exact Session.awaits_none
  | commit hact hidle =>
    refine hinv.step_of_sweep ?_ ?_ rfl (fun _ => Session.awaits_none)
    · exact fun k1 hk1 => Sys.view_of_not_held (hfree k1 hk1)
    · exact fun k1 hk1 => Sys.release_of_not_held (hfree k1 hk1)
  | rollback hact hidle =>
    refine hinv.step_of_sweep (fun _ _ => rfl) ?_ rfl (fun _ => Session.awaits_none)
    exact fun k1 hk1 => Sys.release_of_not_held (hfree k1 hk1)

theorem LastInv.step_finisher {m : Move Key} (hsel : Selected (machine rows (crowd f sweep)) s)
    (hstep : Step (machine rows (crowd f sweep)) rows s (.inl i, m) s') :
    LastInv rows db j f s' := by
  have hpath := hinv.on_path i
  cases hstep with
  | start hact hidle => exact hinv.start_finisher hlast hact hidle
  | hit hact hactive hk hfree hcond =>
    exact hinv.hit_finisher hlast hact hactive hk hfree hcond
  | pass hact hactive hk _ hcond =>
    exact hinv.pass_finisher hlast hact hsel hactive hk hcond
  | stop hact hactive hempty => exact hinv.stop_finisher hlast hact hactive hempty
  | commit hact _ =>
    cases hpc : (s.session (.inl i)).pc with
    | commitFinish b => exact hinv.leave hlast hpc
    | commitLost => simp [OnPath, hpc] at hpath
    | _ =>
      rw [hpc] at hact
      simp [machine, crowd, Txn.act] at hact
  | rollback hact _ =>
    cases hpc : (s.session (.inl i)).pc with
    | rollbackLost => simp [OnPath, hpc] at hpath
    | _ =>
      rw [hpc] at hact
      simp [machine, crowd, Txn.act] at hact

end

end

/-! ## Runs -/

omit [DecidableEq κ] in
theorem LastInv.fresh [Nonempty ι] (hlast : LastRows rows db j f)
    (hs : Fresh (crowd f sweep) db s) : LastInv rows db j f s := by
  obtain ⟨rfl, hheld, hsession⟩ := hs
  have hfinisher : ∀ i, s.session (.inl i) = ⟨.ownRow, none⟩ := fun i => hsession (.inl i)
  have hstage : ∀ i, stages j s i = .waiting := by
    intro i
    simp [stages, stage, hfinisher]
  obtain ⟨i0⟩ := ‹Nonempty ι›
  constructor
  case refines => exact ⟨[], .start hstage⟩
  case on_path =>
    intro i
    simp [hfinisher, OnPath]
  case row =>
    intro i
    constructor
    case held => simp [hheld]
    case taken => simp [hfinisher, rowTaken]
    case running => exact fun _ => rfl
    case done => simp [hstage, isGone]
  case other =>
    intro d hno
    refine ⟨hheld _, fun hd => ?_⟩
    cases hlive : JobDomain.live (s.committed (.row j d)) with
    | false => rfl
    | true =>
      obtain ⟨i, hi⟩ := hlast.others d hd hlive
      exact absurd hi (hno i)
  case job =>
    constructor
    case held => simp [hheld]
    case inside => simp [hstage, inside]
    case running => exact fun _ _ => hlast.running
    case done =>
      intro hall
      have hgone := hall i0
      simp [hstage, isGone] at hgone
  case sweep_waits =>
    intro k _
    rw [hsession]
    exact Session.awaits_none

theorem LastInv.of_run [Nonempty ι] {h : List (Sys Val (ι ⊕ κ) Pc × ((ι ⊕ κ) × Move Key))}
    (hlast : LastRows rows db j f) (hrun : TxnRun rows (crowd f sweep) db h s) :
    LastInv rows db j f s := by
  have hboth : LastInv rows db j f s ∧ Selected (machine rows (crowd f sweep)) s := by
    apply hrun.always
    · intro s0 hs
      refine ⟨LastInv.fresh hlast hs, ?_⟩
      intro t st a _ hactive
      simp [hs.2.2 t] at hactive
    · rintro s1 ⟨t, m⟩ s2 ⟨hinv, hsel⟩ hstep
      refine ⟨?_, hsel.step hstep⟩
      cases t with
      | inl i => exact hinv.step_finisher hlast hsel hstep
      | inr k => exact hinv.step_sweep hlast hstep
  exact hboth.1

end

/-- When the `n` finishers of the last rows and any sweeps are through, the job is
done and exactly one finisher has completed it. -/
theorem last_rows_complete_once (n m : ℕ) (hn : 1 ≤ n) (rows : Finset Key) (db : Db Val)
    (j : JobId) (f : Fin n → FinishCall) (sweep : Fin m → Time) (hlast : LastRows rows db j f)
    (h : List (Sys Val (Fin n ⊕ Fin m) Pc × ((Fin n ⊕ Fin m) × Move Key)))
    (s : Sys Val (Fin n ⊕ Fin m) Pc) (hrun : TxnRun rows (crowd f sweep) db h s)
    (hthrough : ∀ t, ∃ o, (s.session t).pc = .finished o) :
    (jobAt s.committed j).status = .done ∧
      (∀ i, ∃ b, (s.session (.inl i)).pc = .finished (.finish true b)) ∧
      ∃! i, (s.session (.inl i)).pc = .finished (.finish true true) := by
  have hne : Nonempty (Fin n) := ⟨⟨0, hn⟩⟩
  have hinv := LastInv.of_run hlast hrun
  have hpc : ∀ i, ∃ b, (s.session (.inl i)).pc = .finished (.finish true b) ∧
      stages j s i = .gone b := by
    intro i
    obtain ⟨o, ho⟩ := hthrough (.inl i)
    have hpath := hinv.on_path i
    cases o with
    | finish recorded b =>
      cases recorded with
      | true => exact ⟨b, ho, by simp [stages, stage, ho]⟩
      | false => simp [OnPath, ho] at hpath
    | _ => simp [OnPath, ho] at hpath
  have hgone : ∀ i, (stages j s i).isGone = true := by
    intro i
    obtain ⟨b, _, hb⟩ := hpc i
    rw [hb]
    rfl
  obtain ⟨h', hrun'⟩ := hinv.refines
  refine ⟨hinv.job.done hgone, fun i => ?_, ?_⟩
  · obtain ⟨b, hb, _⟩ := hpc i
    exact ⟨b, hb⟩
  · obtain ⟨i, hi, huniq⟩ := LastOut.existsUnique_last hrun' hgone
    refine ⟨i, ?_, ?_⟩
    · obtain ⟨b, hb, hb'⟩ := hpc i
      rw [hi] at hb'
      cases hb'
      exact hb
    · intro i' hi'
      apply huniq
      obtain ⟨b, hb, hb'⟩ := hpc i'
      rw [hi'] at hb
      cases hb
      exact hb'

namespace LastTwo

/-- The rows `a` and `b` of the job are running. -/
def db : Db Val
  | .job _ => ({ createdAt := 0, status := .running } : Job)
  | .row _ d =>
    if d = "a".toList ∨ d = "b".toList then
      ({ seq := 0, availableAt := 0, state := .running, claimedBy := some d } : JobDomain)
    else ({ seq := 1, availableAt := 0, state := .done } : JobDomain)
  | .domain _ => ({ updatedAt := 0 } : DomainRow)

def rows : Finset Key := {.job 0, .row 0 "a".toList, .row 0 "b".toList, .row 0 "c".toList}

def call (i : Fin 2) : FinishCall :=
  let d := if i = 0 then "a".toList else "b".toList
  ⟨1, ⟨0, d, 1, d, none⟩, { domain := d, status := .found }, true, true⟩

theorem lastRows : LastRows rows db 0 call := by
  constructor
  case others =>
    intro d hd hlive
    obtain rfl | rfl | rfl : d = "a".toList ∨ d = "b".toList ∨ d = "c".toList := by
      simpa [rows] using hd
    · exact ⟨0, rfl⟩
    · exact ⟨1, rfl⟩
    · exact absurd hlive (by decide)
  all_goals decide

def stmt (t : Fin 2 ⊕ Fin 1) (ks : List Key) : List ((Fin 2 ⊕ Fin 1) × Move Key) :=
  (t, .start) :: ks.map (fun k => (t, .row k)) ++ [(t, .stop)]

/-- Both finishers take their rows, the first one gets the job, the second one has
to wait for it, and the sweep finds nothing to do in between. -/
def schedule : List ((Fin 2 ⊕ Fin 1) × Move Key) :=
  stmt (.inl 0) [.row 0 "a".toList] ++ stmt (.inl 1) [.row 0 "b".toList] ++
    stmt (.inl 0) [] ++ stmt (.inl 1) [] ++ stmt (.inl 0) [.job 0] ++
    [(.inl 1, .start)] ++ stmt (.inl 0) [] ++ stmt (.inr 0) [] ++ [(.inl 0, .close)] ++
    [(.inl 1, .row (.job 0)), (.inl 1, .stop)] ++ stmt (.inl 1) [.job 0] ++
    [(.inr 0, .close), (.inl 1, .close)]

end LastTwo

/-- Two finishers together with a sweep. -/
theorem last_two_rows_complete_once :
    ∃ h s, TxnRun LastTwo.rows (crowd LastTwo.call fun _ : Fin 1 => 1) LastTwo.db h s ∧
      (∀ t, ∃ o, (s.session t).pc = .finished o) ∧ (jobAt s.committed 0).status = .done ∧
      ∃! i, (s.session (.inl i)).pc = .finished (.finish true true) := by
  obtain ⟨h, s, hrun, h0, h1, hsweep⟩ := Transition.Run.exists_of_exec
    (Fresh (crowd LastTwo.call fun _ : Fin 1 => 1) LastTwo.db)
    (step (machine LastTwo.rows (crowd LastTwo.call fun _ : Fin 1 => 1)) LastTwo.rows)
    ⟨LastTwo.db, fun _ => none, fun t => ⟨(crowd LastTwo.call (fun _ => 1) t).entry, none⟩⟩
    ⟨rfl, fun _ => rfl, fun _ => rfl⟩ LastTwo.schedule
    (fun p => (p.2.session (.inl 0)).pc = .finished (.finish true false) ∧
      (p.2.session (.inl 1)).pc = .finished (.finish true true) ∧
      (p.2.session (.inr 0)).pc = .finished (.completed 0))
    (by decide +kernel)
  have hrun' : TxnRun LastTwo.rows (crowd LastTwo.call fun _ : Fin 1 => 1) LastTwo.db h s :=
    hrun.mono fun _ _ _ => step_sound
  have hthrough : ∀ t, ∃ o, (s.session t).pc = .finished o := by
    rintro (i | k)
    · match i with
      | 0 => exact ⟨_, h0⟩
      | 1 => exact ⟨_, h1⟩
    · match k with
      | 0 => exact ⟨_, hsweep⟩
  obtain ⟨hdone, _, huniq⟩ := last_rows_complete_once 2 1 (by decide) LastTwo.rows LastTwo.db 0
    LastTwo.call _ LastTwo.lastRows h s hrun' hthrough
  exact ⟨h, s, hrun', hthrough, hdone, huniq⟩

end Queue

end EmailExtractor
