import EmailExtractor.Queue.Claiming

/-!
# A call of `claim` that is left alone

The statements of a call, run without a step of another session in between, are the
transaction `claim` of the model of whole operations: they write what it writes for some choice
of the jobs and rows that may be picked.
-/

namespace EmailExtractor

namespace Queue

open ReadCommitted List
open Function (update_self update_of_ne)

/-! ## What a call writes -/

section

variable {s : Store} {now : Time} {worker : Str} {call : Call} {j : JobId} {d : Str}

theorem Store.exec_eq_write {st : Stmt Val} {k : Key}
    (honly : ∀ k', st.cond s.val k' (s.val k') = true → k' = k) :
    s.exec st = if k ∈ s.rows ∧ st.cond s.val k (s.val k) = true then
      s.write k (st.set s.val k (s.val k)) else s := by
  split
  · rename_i h
    suffices hval : st.apply s.rows s.val = Function.update s.val k (st.set s.val k (s.val k)) by
      rw [Store.exec, Store.write, hval]
    funext k'
    unfold Stmt.apply Stmt.selected
    by_cases hk : k' = k
    · subst hk
      rw [if_pos (Finset.mem_filter.mpr ⟨h.1, h.2⟩), update_self]
    · rw [update_of_ne hk, if_neg]
      exact fun hk' => hk (honly k' (Finset.mem_filter.mp hk').2)
  · rename_i h
    refine Store.exec_of_hits_eq_empty (Finset.eq_empty_of_forall_notMem fun k' hk' => h ?_)
    obtain ⟨hmem, hcond⟩ := Store.mem_hits.mp hk'
    obtain rfl := honly k' hcond
    exact ⟨hmem, hcond⟩

theorem Store.exec_claimRow {tok : Str} (hmem : .row j d ∈ s.rows) :
    s.exec (claimRow now tok j d) = s.write (.row j d) ((s.row j d).claimed now tok) := by
  rw [Store.exec_eq_write (k := .row j d), if_pos ⟨hmem, by simp [claimRow]⟩]
  · rfl
  · rintro (_ | ⟨j', d'⟩ | _) hcond <;> simp_all [claimRow]

/-- What `claim` writes to the job: the time of its start, once. -/
def Store.startedJob (s : Store) (now : Time) (j : JobId) : Option Job :=
  if .job j ∈ s.rows ∧ (s.job j).unstarted = true then some ((s.job j).started now) else none

theorem Store.exec_startJob : s.exec (startJob now j) =
    (s.startedJob now j).elim s (s.write (.job j)) := by
  rw [Store.exec_eq_write (k := .job j), Store.startedJob]
  · have hcond : (startJob now j).cond s.val (.job j) (s.val (.job j)) = (s.job j).unstarted := by
      simp [startJob, Store.job]
    rw [hcond]
    split <;> rfl
  · rintro (j' | _ | _) hcond <;> simp_all [startJob]

/-- The statements after the one that takes a row make the end of `claim`. -/
theorem claimLoop_cons {x : Try} {tries : List Try} (h : s.NextRow now x.jobId x.domain) :
    (claimLoop s now worker (x :: tries)).1 = s.writeClaim x.jobId x.domain
      ((s.row x.jobId x.domain).claimed now (newToken worker x.hex))
      (s.startedJob now x.jobId) := by
  have hmem := (Store.row_mem_rowsWhere.mp h.1).1
  have hjob : ∀ row, (s.write (.row x.jobId x.domain) row).startedJob now x.jobId =
      s.startedJob now x.jobId := by
    intro row
    rw [Store.startedJob, Store.startedJob, Store.job_write_row]
    rfl
  rw [claimLoop, if_neg (Finset.ne_empty_of_mem h.1)]
  simp only [Store.exec_claimRow hmem, Store.exec_startJob, hjob]
  unfold Store.writeClaim
  cases s.startedJob now x.jobId <;> rfl

/-! ## The choices -/

theorem claimLoop_append {done : List Try} (h : ∀ x ∈ done, s.claimableRows now x.jobId = ∅)
    (tries : List Try) :
    claimLoop s now worker (done ++ tries) = claimLoop s now worker tries := by
  induction done with
  | nil => rfl
  | cons x done ih =>
    obtain ⟨hx, hdone⟩ := forall_mem_cons.mp h
    rw [cons_append, claimLoop, if_pos hx, ih hdone]

theorem Store.exists_nextRow (h : s.claimableRows now j ≠ ∅) : ∃ d, s.NextRow now j d := by
  obtain ⟨k, hk, hmin⟩ := Finset.exists_min_image (s.claimableRows now j)
    (fun k => (k.rowDomain?.map fun d => (s.row j d).seq).getD 0)
    (Finset.nonempty_iff_ne_empty.mpr h)
  have ⟨j', d, heq, _, hclaimable⟩ := Store.mem_rowsWhere.mp hk
  obtain ⟨rfl, -⟩ := (Bool.and_eq_true_iff.mp hclaimable).imp_left of_decide_eq_true
  subst heq
  refine ⟨d, hk, fun k' hk' d' hd' => ?_⟩
  have hle := hmin k' hk'
  rw [hd'] at hle
  exact hle

/-- The call has picked jobs, has found nothing to claim for `done` and has `js` to try. -/
def Store.Tried (s : Store) (call : Call) (done js : List JobId) : Prop :=
  s.PickJobs call.now (done ++ js) ∧ ∀ j ∈ done, s.claimableRows call.now j = ∅

/-- The store is what `claim` makes of `s` for some choice. -/
def Store.Claimed (s : Store) (call : Call) (store : Store) : Prop :=
  ∃ tries, ClaimChoices s call.now tries ∧ store = (claim s call.now call.worker tries).1

theorem Store.Tried.claimed {done : List JobId} {tries : List Try}
    (h : s.Tried call done (tries.map Try.jobId))
    (hrows : ∀ x ∈ tries, s.claimableRows call.now x.jobId ≠ ∅ →
      s.NextRow call.now x.jobId x.domain) :
    s.Claimed call (claimLoop s call.now call.worker tries).1 := by
  have hempty : ∀ x ∈ done.map (⟨·, [], []⟩ : JobId → Try),
      s.claimableRows call.now x.jobId = ∅ := forall_mem_map.mpr h.2
  refine ⟨done.map (⟨·, [], []⟩) ++ tries, ⟨by simpa [Function.comp_def] using h.1, ?_⟩,
    congrArg Prod.fst (claimLoop_append hempty tries).symm⟩
  exact forall_mem_append.mpr ⟨fun x hx hne => absurd (hempty x hx) hne, hrows⟩

theorem Store.Tried.take {done js : List JobId} (h : s.Tried call done (j :: js))
    (hnext : s.NextRow call.now j d) (hex : Str) :
    s.Claimed call (s.writeClaim j d ((s.row j d).claimed call.now (newToken call.worker hex))
      (s.startedJob call.now j)) := by
  have hrow : ∀ j, ∃ d, s.claimableRows call.now j ≠ ∅ → s.NextRow call.now j d := by
    intro j
    by_cases h : s.claimableRows call.now j = ∅
    · exact ⟨[], absurd h⟩
    · obtain ⟨d, hd⟩ := Store.exists_nextRow h
      exact ⟨d, fun _ => hd⟩
  choose row hrow using hrow
  have hjobs : (j :: js) = (⟨j, hex, d⟩ :: js.map fun j => ⟨j, [], row j⟩ : List Try).map
      Try.jobId := by
    simp [Function.comp_def]
  rw [hjobs] at h
  rw [← claimLoop_cons (x := ⟨j, hex, d⟩) hnext]
  exact h.claimed (forall_mem_cons.mpr ⟨fun _ => hnext, forall_mem_map.mpr fun j _ => hrow j⟩)

end

/-! ## The run of a call -/

section

variable {T : Type} {s : Store} {x x' : Claims T} {t : T} {m : ClaimMove T}

/-- The call has tried all the jobs it picked. -/
def ClaimPc.exhausted : ClaimPc → Bool
  | .picked _ js => js.isEmpty
  | _ => false

/-- The call `t` makes the move, and is rolled back only after it has tried all its jobs. -/
def Claims.alone [DecidableEq T] (x : Claims T) (t : T) : ClaimMove T → Bool
  | .pick t' _ _ => t' = t
  | .take t' _ _ => t' = t
  | .skip t' => t' = t
  | .start t' => t' = t
  | .commit t' => t' = t
  | .rollback t' => t' = t && (x.call t).exhausted
  | .change _ _ => false

/-- How far a call is that began with the store `s`, and what it makes of it in the end. -/
abbrev Progress (s : Store) (pc : ClaimPc) (store : Store) : Prop :=
  match pc with
  | .ready => store = s
  | .picked call js => store = s ∧ ∃ done, s.Tried call done js
  | .claimed call j d row =>
    store = s ∧ s.Claimed call (s.writeClaim j d row (s.startedJob call.now j))
  | .started j d row job => store = s ∧ ∃ call, s.Claimed call (s.writeClaim j d row job)
  | .over => ∃ call, s.Claimed call store

def Claims.HeldBy (x : Claims T) (t : T) : Prop := ∀ k, ∀ t' ∈ x.held k, t' = t

theorem Claims.HeldBy.hold (h : x.HeldBy t) (key : Key) : (x.hold t key).HeldBy t := by
  intro k t' ht'
  by_cases hk : k = key
  · subst hk
    simpa [Claims.hold, eq_comm] using ht'
  · exact h k t' (by simpa [Claims.hold, hk] using ht')

variable [DecidableEq T]

theorem Claims.HeldBy.release (h : x.HeldBy t) : (x.release t).HeldBy t :=
  fun k t' ht' => h k t' (Option.mem_filter_iff.mp ht').1

theorem freeRows_of_heldBy (h : x.HeldBy t) (now : Time) (j : JobId) :
    x.freeRows t now j = x.store.claimableRows now j :=
  Finset.filter_eq_self.mpr fun k _ => h k

/-- A move of the call takes it on, and the rows that are held stay its own. -/
theorem Progress.step (h : Progress s (x.call t) x.store) (hheld : x.HeldBy t)
    (halone : x.alone t m = true) (hstep : ClaimStep x m x') :
    Progress s (x'.call t) x'.store ∧ x'.HeldBy t := by
  cases claimEffect hstep with
  | pick hcall hjs =>
    obtain rfl := of_decide_eq_true halone
    rw [hcall] at h
    rw [Claims.call_goto_self]
    exact ⟨⟨h, [], h ▸ hjs, nofun⟩, hheld⟩
  | @take _ hex _ _ _ _ hcall hnext =>
    obtain rfl := of_decide_eq_true halone
    rw [hcall] at h
    obtain ⟨rfl, done, htried⟩ := h
    rw [Claims.NextFree, freeRows_of_heldBy hheld] at hnext
    rw [Claims.call_goto_self]
    exact ⟨⟨rfl, htried.take hnext hex⟩, hheld.hold _⟩
  | @skip _ _ j _ hcall hempty =>
    obtain rfl := of_decide_eq_true halone
    rw [hcall] at h
    obtain ⟨rfl, done, hjs, hdone⟩ := h
    rw [freeRows_of_heldBy hheld] at hempty
    rw [Claims.call_goto_self]
    refine ⟨⟨rfl, done ++ [j], by simpa using hjs, ?_⟩, hheld⟩
    exact forall_mem_append.mpr ⟨hdone, forall_mem_singleton.mpr hempty⟩
  | start hcall hhit =>
    obtain rfl := of_decide_eq_true halone
    rw [hcall] at h
    obtain ⟨rfl, hclaimed⟩ := h
    rw [Store.startedJob, if_pos hhit] at hclaimed
    rw [Claims.call_goto_self]
    exact ⟨⟨rfl, _, hclaimed⟩, hheld.hold _⟩
  | pass hcall hmiss =>
    obtain rfl := of_decide_eq_true halone
    rw [hcall] at h
    obtain ⟨rfl, hclaimed⟩ := h
    rw [Store.startedJob, if_neg hmiss] at hclaimed
    rw [Claims.call_goto_self]
    exact ⟨⟨rfl, _, hclaimed⟩, hheld⟩
  | commit hcall =>
    obtain rfl := of_decide_eq_true halone
    rw [hcall] at h
    obtain ⟨rfl, call, hclaimed⟩ := h
    rw [Claims.call_goto_self]
    exact ⟨⟨call, hclaimed⟩, hheld.release⟩
  | @rollback t' =>
    obtain ⟨ht, hend⟩ := Bool.and_eq_true_iff.mp halone
    obtain rfl := of_decide_eq_true ht
    rw [Claims.call_goto_self]
    refine ⟨?_, hheld.release⟩
    revert h hend
    cases x.call t' with
    | picked call js =>
      rintro ⟨rfl, done, htried⟩ hend
      rw [isEmpty_iff.mp hend] at htried
      exact ⟨call, @Store.Tried.claimed _ _ _ [] htried nofun⟩
    | _ => exact fun _ hend => nomatch hend
  | change => cases halone

/-- The moves of a call that is left alone, from its first statement to its end, make the
transaction `claim` for some choice of the jobs and rows that may be picked. -/
theorem claim_alone {s s' : Claims T} {moves : List (Claims T × ClaimMove T)}
    (hheld : ∀ k, s.held k = none) (hready : s.call t = .ready)
    (hrun : Transition.Run (fun x => x = s) ClaimStep moves s')
    (halone : Transition.Guarded (fun x m => x.alone t m = true) moves)
    (hover : s'.call t = .over) :
    ∃ (call : Call) (tries : List Try), ClaimChoices s.store call.now tries ∧
      s'.store = (claim s.store call.now call.worker tries).1 := by
  have hprogress : Progress s.store (s'.call t) s'.store ∧ s'.HeldBy t := by
    refine hrun.invariant (I := fun x => Progress s.store (x.call t) x.store ∧ x.HeldBy t) ?_ ?_
      halone
    · rintro x rfl
      rw [hready]
      exact ⟨rfl, by simp [Claims.HeldBy, hheld]⟩
    · exact fun x m x' h halone hstep => h.1.step h.2 halone hstep
  rw [hover] at hprogress
  exact hprogress.1

end

/-- The call that takes the one row of the job. -/
theorem claim_alone_row : ∃ moves s', Transition.Run (fun x => x = LateCancel.start) ClaimStep
    moves s' ∧ (s'.store.row 0 "a".toList).state = .running ∧
      ∃ (call : Call) (tries : List Try), ClaimChoices LateCancel.store call.now tries ∧
        s'.store = (claim LateCancel.store call.now call.worker tries).1 := by
  obtain ⟨moves, s', hrun, halone, hover, hrunning⟩ :=
    Transition.Run.exists_of_exec (fun x => x = LateCancel.start) claimStep LateCancel.start rfl
      (LateCancel.pick :: LateCancel.rest)
      (fun p => (∀ q ∈ p.1, q.1.alone () q.2 = true) ∧ p.2.call () = .over ∧
        (p.2.store.row 0 "a".toList).state = .running)
      (by decide +kernel)
  exact ⟨moves, s', hrun, hrunning, claim_alone (fun _ => rfl) rfl hrun halone hover⟩

end Queue

end EmailExtractor
