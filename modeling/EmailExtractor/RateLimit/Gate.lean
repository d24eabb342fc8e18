import EmailExtractor.Library.Run
import EmailExtractor.Library.Semaphore

/-!
# The fetch gate

`FetchGate` of `app/ratelimit.py`: a slot is entered through the breaker, the global
semaphore, the semaphore of its domain and the bucket. A task can be cancelled at each of the
four awaits. The semaphore of a domain is an object that the dictionary of the gate names; it
is looked up again by the name on the way out, and `release_domain` may delete the entry.

The stage of a task says where it is in the slot and which object it waits at or holds. An
entry is deleted only when all the permits of its object are back, and then no task waits at
it or holds it. So the object that a task finds on its way out is the one it acquired.
-/

namespace EmailExtractor

namespace RateLimit

open Transition Semaphore
open Function (update update_self update_of_ne update_eq_self)

variable {τ δ : Type*}

structure GateConfig where
  globalConcurrency : ℕ
  perDomainConcurrency : ℕ

/-- Where a task is in a slot. A semaphore of a domain is known by its number. -/
inductive Stage (δ : Type*)
  | outside
  | naps (d : δ)
  | waitsGlobal (d : δ)
  | cancelledGlobal (d : δ)
  | waitsDomain (d : δ) (i : ℕ)
  | cancelledDomain (d : δ) (i : ℕ)
  | waitsBucket (d : δ) (i : ℕ)
  | inside (d : δ) (i : ℕ)
  deriving DecidableEq

/-- The semaphores, the dictionary of the domains and the stages of the tasks. -/
structure Gate (τ δ : Type*) where
  global : Semaphore τ
  sems : ℕ → Semaphore τ
  perDomain : δ → Option ℕ
  created : ℕ
  stage : τ → Stage δ

/-- What the breaker's loop in `__aenter__` comes to at a check. -/
inductive Verdict
  | admits
  | naps
  | raises
  deriving DecidableEq

/-- What happens next. `cancel` cancels the future that a waiter awaits, and `unwind` throws
the cancellation, or another exception, into a task at its await. -/
inductive GateAction (τ δ : Type*)
  | check (t : τ) (d : δ) (v : Verdict)
  | resume (t : τ)
  | cancel (t : τ)
  | unwind (t : τ)
  | grant (t : τ)
  | leave (t : τ)
  | releaseDomain (d : δ)
  deriving DecidableEq

namespace Gate

variable (cfg : GateConfig)

def new : Gate τ δ where
  global := ⟨cfg.globalConcurrency, []⟩
  sems _ := ⟨cfg.perDomainConcurrency, []⟩
  perDomain _ := none
  created := 0
  stage _ := .outside

variable [DecidableEq τ] [DecidableEq δ]

/-- `_domain_sem`: the number of the semaphore, and the gate with it. -/
def domainSem (d : δ) (g : Gate τ δ) : ℕ × Gate τ δ :=
  match g.perDomain d with
  | some i => (i, g)
  | none =>
    (g.created, { g with
      sems := update g.sems g.created ⟨cfg.perDomainConcurrency, []⟩
      perDomain := update g.perDomain d (some g.created)
      created := g.created + 1 })

def setStage (t : τ) (st : Stage δ) (g : Gate τ δ) : Gate τ δ :=
  { g with stage := update g.stage t st }

def setSem (i : ℕ) (s : Semaphore τ) (g : Gate τ δ) : Gate τ δ :=
  { g with sems := update g.sems i s }

/-- `await g._domain_sem(self._domain).acquire()`, up to the next await. -/
def acquireDomain (t : τ) (d : δ) (g : Gate τ δ) : Gate τ δ :=
  let i := (g.domainSem cfg d).1
  let g := (g.domainSem cfg d).2
  if (g.sems i).locked then (g.setSem i ((g.sems i).enqueue t)).setStage t (.waitsDomain d i)
  else (g.setSem i (g.sems i).take).setStage t (.waitsBucket d i)

/-- `await g._global.acquire()`, up to the next await. -/
def acquireGlobal (t : τ) (d : δ) (g : Gate τ δ) : Gate τ δ :=
  if g.global.locked then { g with global := g.global.enqueue t }.setStage t (.waitsGlobal d)
  else acquireDomain cfg t d { g with global := g.global.take }

/-- The releases of `__aexit__`, and of the handler around the bucket. -/
def releaseBoth (d : δ) (g : Gate τ δ) : Gate τ δ :=
  let i := (g.domainSem cfg d).1
  let g := (g.domainSem cfg d).2
  { g.setSem i (g.sems i).release with global := g.global.release }

def releaseDomain (d : δ) (g : Gate τ δ) : Gate τ δ :=
  match g.perDomain d with
  | none => g
  | some i =>
    if (g.sems i).value = cfg.perDomainConcurrency then
      { g with perDomain := update g.perDomain d none }
    else g

def resume (t : τ) (g : Gate τ δ) : Option (Gate τ δ) :=
  match g.stage t with
  | .waitsGlobal d =>
    if ⟨t, true⟩ ∈ g.global.queue then
      some (acquireDomain cfg t d { g with global := g.global.resume t })
    else none
  | .waitsDomain d i =>
    if ⟨t, true⟩ ∈ (g.sems i).queue then
      some ((g.setSem i ((g.sems i).resume t)).setStage t (.waitsBucket d i))
    else none
  | _ => none

def cancel (t : τ) (g : Gate τ δ) : Option (Gate τ δ) :=
  match g.stage t with
  | .waitsGlobal d =>
    if ⟨t, false⟩ ∈ g.global.queue then
      some ({ g with global := g.global.remove t }.setStage t (.cancelledGlobal d))
    else none
  | .waitsDomain d i =>
    if ⟨t, false⟩ ∈ (g.sems i).queue then
      some ((g.setSem i ((g.sems i).remove t)).setStage t (.cancelledDomain d i))
    else none
  | _ => none

/-- An exception is thrown into the task at its await, and leaves the slot. -/
def unwind (t : τ) (g : Gate τ δ) : Option (Gate τ δ) :=
  match g.stage t with
  | .naps _ => some (g.setStage t .outside)
  | .waitsGlobal _ =>
    if ⟨t, true⟩ ∈ g.global.queue then
      some ({ g with global := g.global.giveBack t }.setStage t .outside)
    else none
  | .cancelledGlobal _ => some ({ g with global := g.global.wakeUp }.setStage t .outside)
  | .waitsDomain _ i =>
    if ⟨t, true⟩ ∈ (g.sems i).queue then
      some ({ g.setSem i ((g.sems i).giveBack t) with
        global := g.global.release }.setStage t .outside)
    else none
  | .cancelledDomain _ i =>
    some ({ g.setSem i (g.sems i).wakeUp with global := g.global.release }.setStage t .outside)
  | .waitsBucket d _ => some ((g.releaseBoth cfg d).setStage t .outside)
  | .outside | .inside _ _ => none

def step (g : Gate τ δ) : GateAction τ δ → Option (Gate τ δ)
  | .check t d v =>
    if g.stage t = .outside ∨ g.stage t = .naps d then
      match v with
      | .admits => some (g.acquireGlobal cfg t d)
      | .naps => some (g.setStage t (.naps d))
      | .raises => some (g.setStage t .outside)
    else none
  | .resume t => g.resume cfg t
  | .cancel t => g.cancel t
  | .unwind t => g.unwind cfg t
  | .grant t =>
    match g.stage t with
    | .waitsBucket d i => some (g.setStage t (.inside d i))
    | _ => none
  | .leave t =>
    match g.stage t with
    | .inside d _ => some ((g.releaseBoth cfg d).setStage t .outside)
    | _ => none
  | .releaseDomain d => some (g.releaseDomain cfg d)

end Gate

/-! ## Roles -/

namespace Stage

def globalRole : Stage δ → Role
  | .outside | .naps _ | .cancelledGlobal _ => .away
  | .waitsGlobal _ => .waiting
  | .waitsDomain _ _ | .cancelledDomain _ _ | .waitsBucket _ _ | .inside _ _ => .holding

def domainRole (j : ℕ) : Stage δ → Role
  | .waitsDomain _ i => if i = j then .waiting else .away
  | .waitsBucket _ i | .inside _ i => if i = j then .holding else .away
  | _ => .away

/-- The domain and the object that the task waits at or holds. -/
def uses : Stage δ → Option (δ × ℕ)
  | .waitsDomain d i | .waitsBucket d i | .inside d i => some (d, i)
  | _ => none

variable {st : Stage δ} {d : δ} {i j : ℕ}

theorem domainRole_of_uses (h : st.uses = some (d, i)) : st.domainRole i ≠ .away := by
  cases st with
  | waitsDomain | waitsBucket | inside =>
    cases h
    simp [domainRole]
  | outside | naps | waitsGlobal | cancelledGlobal | cancelledDomain => cases h

theorem domainRole_of_uses_ne (h : st.uses = some (d, i)) (hne : i ≠ j) :
    st.domainRole j = .away := by
  cases st with
  | waitsDomain | waitsBucket | inside =>
    cases h
    simp [domainRole, hne]
  | outside | naps | waitsGlobal | cancelledGlobal | cancelledDomain => cases h

theorem domainRole_of_uses_none (h : st.uses = none) (j : ℕ) : st.domainRole j = .away := by
  cases st with
  | waitsDomain | waitsBucket | inside => cases h
  | outside | naps | waitsGlobal | cancelledGlobal | cancelledDomain => rfl

def Idle (st : Stage δ) : Prop := st = .outside ∨ ∃ d, st = .naps d

theorem Idle.roles (h : st.Idle) : st.globalRole = .away ∧ st.uses = none := by
  rcases h with rfl | ⟨d, rfl⟩
  · exact ⟨rfl, rfl⟩
  · exact ⟨rfl, rfl⟩

def Holds (d : δ) (i : ℕ) (st : Stage δ) : Prop := st = .waitsBucket d i ∨ st = .inside d i

theorem Holds.roles (h : st.Holds d i) :
    st.globalRole = .holding ∧ st.domainRole i = .holding ∧ st.uses = some (d, i) := by
  rcases h with rfl | rfl
  · exact ⟨rfl, if_pos rfl, rfl⟩
  · exact ⟨rfl, if_pos rfl, rfl⟩

end Stage

/-! ## The books of the gate -/

/-- The ledger of every semaphore is kept, and the dictionary names the object that a task
waits at or holds. Where the limit is zero nobody ever holds one, and `release_domain` may
delete the entry under the tasks that wait. -/
structure Kept (cfg : GateConfig) (g : Gate τ δ) : Prop where
  global : Ledger cfg.globalConcurrency g.global (Stage.globalRole ∘ g.stage)
  domain : ∀ j, Ledger cfg.perDomainConcurrency (g.sems j) (Stage.domainRole j ∘ g.stage)
  named : 0 < cfg.perDomainConcurrency → ∀ t d i, (g.stage t).uses = some (d, i) →
    g.perDomain d = some i
  used : ∀ t d i, (g.stage t).uses = some (d, i) → i < g.created
  listed : ∀ d i, g.perDomain d = some i → i < g.created

namespace Kept

variable {cfg : GateConfig} {g g' : Gate τ δ} {t : τ} {d : δ} {i : ℕ} {st : Stage δ}
  {s s' : Semaphore τ}

theorem new : Kept cfg (Gate.new cfg : Gate τ δ) := by
  refine ⟨.new _, fun _ => .new _, ?_, ?_, ?_⟩
  · intro _ _ _ _ h
    cases h
  · intro _ _ _ h
    cases h
  · intro _ _ h
    cases h

theorem update_role [DecidableEq τ] (role : Stage δ → Role)
    (hsame : role st = role (g.stage t)) :
    update (role ∘ g.stage) t (role st) = role ∘ g.stage := by
  rw [hsame]
  exact update_eq_self t (role ∘ g.stage)

/-- One task moves to another stage: the ledgers of the global semaphore and of one domain's
change with it, and the object that it uses from now on is the one in the dictionary. -/
theorem move [DecidableEq τ] (h : Kept cfg g)
    (hglobal : Ledger cfg.globalConcurrency s
      (update (Stage.globalRole ∘ g.stage) t st.globalRole))
    (hdomain : Ledger cfg.perDomainConcurrency s'
      (update (Stage.domainRole i ∘ g.stage) t (st.domainRole i)))
    (hothers : ∀ j, j ≠ i → st.domainRole j = (g.stage t).domainRole j)
    (huses : ∀ d j, st.uses = some (d, j) →
      (0 < cfg.perDomainConcurrency → g.perDomain d = some j) ∧ j < g.created) :
    Kept cfg { g with
      global := s
      sems := update g.sems i s'
      stage := update g.stage t st } where
  global := by
    rw [Function.comp_update]
    exact hglobal
  domain := by
    apply (Function.forall_update_iff g.sems fun j sem => Ledger cfg.perDomainConcurrency sem
      (Stage.domainRole j ∘ update g.stage t st)).mpr
    simp only [Function.comp_update]
    refine ⟨hdomain, fun j hj => ?_⟩
    rw [update_role (Stage.domainRole j) (hothers j hj)]
    exact h.domain j
  named hpos := by
    apply (Function.forall_update_iff g.stage fun _ st => ∀ d j, st.uses = some (d, j) →
      g.perDomain d = some j).mpr
    exact ⟨fun d j hj => (huses d j hj).1 hpos, fun t' _ => h.named hpos t'⟩
  used := by
    apply (Function.forall_update_iff g.stage fun _ st => ∀ d j, st.uses = some (d, j) →
      j < g.created).mpr
    exact ⟨fun d j hj => (huses d j hj).2, fun t' _ => h.used t'⟩
  listed := h.listed

variable [DecidableEq τ]

section

variable (h : Kept cfg g)

include h

theorem moveGlobal
    (hglobal : Ledger cfg.globalConcurrency s
      (update (Stage.globalRole ∘ g.stage) t st.globalRole))
    (hroles : ∀ j, st.domainRole j = (g.stage t).domainRole j)
    (huses : st.uses = (g.stage t).uses) :
    Kept cfg { g with global := s, stage := update g.stage t st } := by
  have hdomain : Ledger cfg.perDomainConcurrency (g.sems 0)
      (update (Stage.domainRole 0 ∘ g.stage) t (st.domainRole 0)) := by
    rw [update_role (Stage.domainRole 0) (hroles 0)]
    exact h.domain 0
  have hmoved := h.move hglobal hdomain (fun j _ => hroles j) fun d j hj =>
    ⟨fun hpos => h.named hpos t d j (huses ▸ hj), h.used t d j (huses ▸ hj)⟩
  rwa [update_eq_self] at hmoved

theorem moveDomain (huses : (g.stage t).uses = some (d, i))
    (hdomain : Ledger cfg.perDomainConcurrency s
      (update (Stage.domainRole i ∘ g.stage) t (st.domainRole i)))
    (hglobal : st.globalRole = (g.stage t).globalRole)
    (hst : st.uses = some (d, i) ∨ st.uses = none) : Kept cfg ((g.setSem i s).setStage t st) := by
  refine h.move ?_ hdomain (fun j hj => ?_) fun d' j hj => ?_
  · rw [update_role Stage.globalRole hglobal]
    exact h.global
  · rw [Stage.domainRole_of_uses_ne huses hj.symm]
    rcases hst with hst | hst
    · exact Stage.domainRole_of_uses_ne hst hj.symm
    · exact Stage.domainRole_of_uses_none hst j
  · have hsame : (g.stage t).uses = some (d', j) := by
      rcases hst with hst | hst
      · rw [huses, ← hst, hj]
      · rw [hst] at hj
        cases hj
    exact ⟨fun hpos => h.named hpos t d' j hsame, h.used t d' j hsame⟩

theorem setStage (hglobal : st.globalRole = (g.stage t).globalRole)
    (hroles : ∀ j, st.domainRole j = (g.stage t).domainRole j)
    (huses : st.uses = (g.stage t).uses) : Kept cfg (g.setStage t st) := by
  refine h.moveGlobal ?_ hroles huses
  rw [update_role Stage.globalRole hglobal]
  exact h.global

theorem setIdle (ht : (g.stage t).Idle) (hst : st.Idle) : Kept cfg (g.setStage t st) := by
  obtain ⟨hrole, huses⟩ := ht.roles
  obtain ⟨hrole', huses'⟩ := hst.roles
  refine h.setStage (hrole'.trans hrole.symm) (fun j => ?_) (huses'.trans huses.symm)
  rw [Stage.domainRole_of_uses_none huses j, Stage.domainRole_of_uses_none huses' j]

theorem cancel (hstep : g.cancel t = some g') : Kept cfg g' := by
  unfold Gate.cancel at hstep
  split at hstep
  · rename_i d hst
    obtain ⟨hsleeps, ⟨⟩⟩ := Option.ite_none_right_eq_some.mp hstep
    refine h.moveGlobal (h.global.drop hsleeps) (fun j => ?_) (congrArg Stage.uses hst).symm
    exact (congrArg (Stage.domainRole j) hst).symm
  · rename_i d i hst
    obtain ⟨hsleeps, ⟨⟩⟩ := Option.ite_none_right_eq_some.mp hstep
    exact h.moveDomain (congrArg Stage.uses hst) ((h.domain i).drop hsleeps)
      (congrArg Stage.globalRole hst).symm (.inr rfl)
  · cases hstep

end

end Kept

/-! ## The semaphore of a domain -/

section DomainSem

variable [DecidableEq δ] (cfg : GateConfig) (g : Gate τ δ) (d : δ)

theorem domainSem_perDomain :
    (g.domainSem cfg d).2.perDomain d = some (g.domainSem cfg d).1 := by
  unfold Gate.domainSem
  cases hd : g.perDomain d with
  | some i => exact hd
  | none => exact update_self ..

theorem domainSem_stage : (g.domainSem cfg d).2.stage = g.stage := by
  unfold Gate.domainSem
  cases g.perDomain d with
  | some i => rfl
  | none => rfl

theorem domainSem_setGlobal (s : Semaphore τ) : { g with global := s }.domainSem cfg d =
    ((g.domainSem cfg d).1, { (g.domainSem cfg d).2 with global := s }) := by
  unfold Gate.domainSem
  cases g.perDomain d with
  | some i => rfl
  | none => rfl

variable {cfg g}

theorem domainSem_of_some {i : ℕ} (h : g.perDomain d = some i) :
    g.domainSem cfg d = (i, g) := by
  rw [Gate.domainSem, h]

theorem Kept.domainSem (h : Kept cfg g) : Kept cfg (g.domainSem cfg d).2 := by
  unfold Gate.domainSem
  cases hd : g.perDomain d with
  | some i => exact h
  | none =>
    refine ⟨h.global, ?_, fun hpos t d' j hj => ?_, fun t d' j hj => ?_, ?_⟩
    · apply (Function.forall_update_iff g.sems fun j sem =>
        Ledger cfg.perDomainConcurrency sem (Stage.domainRole j ∘ g.stage)).mpr
      refine ⟨?_, fun j _ => h.domain j⟩
      have hnobody : Stage.domainRole g.created ∘ g.stage = fun _ => .away := by
        funext t
        cases huses : (g.stage t).uses with
        | none => exact Stage.domainRole_of_uses_none huses g.created
        | some p =>
          exact Stage.domainRole_of_uses_ne huses (ne_of_lt (h.used t p.1 p.2 huses))
      rw [hnobody]
      exact .new _
    · have hne : d' ≠ d := by
        rintro rfl
        rw [h.named hpos t d' j hj] at hd
        cases hd
      exact (update_of_ne hne ..).trans (h.named hpos t d' j hj)
    · exact Nat.lt_succ_of_lt (h.used t d' j hj)
    · apply (Function.forall_update_iff g.perDomain fun _ entry =>
        ∀ j, entry = some j → j < g.created + 1).mpr
      refine ⟨?_, fun d' _ j hj => Nat.lt_succ_of_lt (h.listed d' j hj)⟩
      rintro j ⟨rfl⟩
      exact Nat.lt_succ_self _

theorem Kept.domainSem_eq {t : τ} {i : ℕ} (h : Kept cfg g) (ht : (g.stage t).Holds d i) :
    g.domainSem cfg d = (i, g) := by
  obtain ⟨-, hrole, huses⟩ := ht.roles
  have hpos : 0 < cfg.perDomainConcurrency := (h.domain i).limit_pos (.inl hrole)
  exact domainSem_of_some d (h.named hpos t d i huses)

/-- An entry is deleted when all permits of its object are back, and then nobody uses it. -/
theorem Kept.releaseDomain (h : Kept cfg g) : Kept cfg (g.releaseDomain cfg d) := by
  unfold Gate.releaseDomain
  cases hd : g.perDomain d with
  | none => exact h
  | some i =>
    simp only
    split
    · rename_i hback
      refine ⟨h.global, h.domain, fun hpos t d' j hj => ?_, h.used, ?_⟩
      · have hne : d' ≠ d := by
          rintro rfl
          have hsame : some j = some i := (h.named hpos t d' j hj).symm.trans hd
          cases hsame
          exact Stage.domainRole_of_uses hj ((h.domain i).away hpos hback t)
        exact (update_of_ne hne ..).trans (h.named hpos t d' j hj)
      · apply (Function.forall_update_iff g.perDomain fun _ entry =>
          ∀ j, entry = some j → j < g.created).mpr
        refine ⟨?_, fun d' _ => h.listed d'⟩
        rintro j ⟨⟩
    · exact h

theorem Kept.acquireDomain [DecidableEq τ] {t : τ} {s : Semaphore τ} (h : Kept cfg g)
    (hglobal : Ledger cfg.globalConcurrency s
      (update (Stage.globalRole ∘ g.stage) t .holding))
    (huses : (g.stage t).uses = none) :
    Kept cfg (Gate.acquireDomain cfg t d { g with global := s }) := by
  have hkept := h.domainSem d
  have hentry := domainSem_perDomain cfg g d
  have hstage := domainSem_stage cfg g d
  unfold Gate.acquireDomain
  rw [domainSem_setGlobal]
  generalize g.domainSem cfg d = p at hkept hentry hstage
  obtain ⟨i, g'⟩ := p
  simp only at hkept hentry hstage ⊢
  have haway : ∀ j, (g'.stage t).domainRole j = .away := by
    rw [hstage]
    exact Stage.domainRole_of_uses_none huses
  have hlisted : i < g'.created := hkept.listed d i hentry
  rw [← hstage] at hglobal
  split
  · rename_i hlocked
    refine hkept.move hglobal ?_ (fun j hj => ?_) ?_
    · have hwaits := (hkept.domain i).enqueue hlocked (haway i)
      simpa [Stage.domainRole] using hwaits
    · exact (Stage.domainRole_of_uses_ne rfl hj.symm).trans (haway j).symm
    · rintro _ _ ⟨rfl⟩
      exact ⟨fun _ => hentry, hlisted⟩
  · rename_i hfree
    refine hkept.move hglobal ?_ (fun j hj => ?_) ?_
    · have htakes := (hkept.domain i).take (Bool.eq_false_of_not_eq_true hfree) (haway i)
      simpa [Stage.domainRole] using htakes
    · exact (Stage.domainRole_of_uses_ne rfl hj.symm).trans (haway j).symm
    · rintro _ _ ⟨rfl⟩
      exact ⟨fun _ => hentry, hlisted⟩

end DomainSem

/-! ## The steps -/

namespace Kept

variable [DecidableEq τ] [DecidableEq δ] {cfg : GateConfig} {g g' : Gate τ δ} {t : τ} {d : δ}
  {i : ℕ}

section

variable (h : Kept cfg g)

include h

theorem releaseBoth (ht : (g.stage t).Holds d i) :
    Kept cfg ((g.releaseBoth cfg d).setStage t .outside) := by
  obtain ⟨hglobal, hrole, huses⟩ := ht.roles
  unfold Gate.releaseBoth
  rw [h.domainSem_eq d ht]
  refine h.move (h.global.release hglobal) ((h.domain i).release hrole) (fun j hj => ?_) ?_
  · exact (Stage.domainRole_of_uses_ne huses hj.symm).symm
  · rintro _ _ ⟨⟩

theorem acquireGlobal (ht : (g.stage t).Idle) : Kept cfg (g.acquireGlobal cfg t d) := by
  obtain ⟨hrole, huses⟩ := ht.roles
  unfold Gate.acquireGlobal
  split
  · rename_i hlocked
    refine h.moveGlobal (h.global.enqueue hlocked hrole) (fun j => ?_) huses.symm
    exact (Stage.domainRole_of_uses_none huses j).symm
  · rename_i hfree
    exact h.acquireDomain d (h.global.take (Bool.eq_false_of_not_eq_true hfree) hrole) huses

theorem resume (hstep : g.resume cfg t = some g') : Kept cfg g' := by
  unfold Gate.resume at hstep
  split at hstep
  · rename_i d hst
    obtain ⟨hwoken, ⟨⟩⟩ := Option.ite_none_right_eq_some.mp hstep
    exact h.acquireDomain d (h.global.resume hwoken) (congrArg Stage.uses hst)
  · rename_i d i hst
    obtain ⟨hwoken, ⟨⟩⟩ := Option.ite_none_right_eq_some.mp hstep
    have hholds : (Stage.waitsBucket d i).domainRole i = .holding := if_pos rfl
    refine h.moveDomain (congrArg Stage.uses hst) ?_ (congrArg Stage.globalRole hst).symm (.inl rfl)
    rw [hholds]
    exact (h.domain i).resume hwoken
  · cases hstep

theorem unwind (hstep : g.unwind cfg t = some g') : Kept cfg g' := by
  unfold Gate.unwind at hstep
  split at hstep
  · rename_i d hst
    obtain ⟨⟩ := hstep
    exact h.setStage (congrArg Stage.globalRole hst).symm
      (fun j => (congrArg (Stage.domainRole j) hst).symm) (congrArg Stage.uses hst).symm
  · rename_i d hst
    obtain ⟨hwoken, ⟨⟩⟩ := Option.ite_none_right_eq_some.mp hstep
    refine h.moveGlobal (h.global.giveBack hwoken) (fun j => ?_) (congrArg Stage.uses hst).symm
    exact (congrArg (Stage.domainRole j) hst).symm
  · rename_i d hst
    obtain ⟨⟩ := hstep
    refine h.moveGlobal ?_ (fun j => ?_) (congrArg Stage.uses hst).symm
    · have hsame : (Stage.outside : Stage δ).globalRole = (g.stage t).globalRole :=
        (congrArg Stage.globalRole hst).symm
      rw [update_role Stage.globalRole hsame]
      exact h.global.wakeUp
    · exact (congrArg (Stage.domainRole j) hst).symm
  · rename_i d i hst
    obtain ⟨hwoken, ⟨⟩⟩ := Option.ite_none_right_eq_some.mp hstep
    refine h.move (h.global.release (congrArg Stage.globalRole hst)) ((h.domain i).giveBack hwoken)
      (fun j hj => ?_) ?_
    · exact (Stage.domainRole_of_uses_ne (congrArg Stage.uses hst) hj.symm).symm
    · rintro _ _ ⟨⟩
  · rename_i d i hst
    obtain ⟨⟩ := hstep
    refine h.move (h.global.release (congrArg Stage.globalRole hst)) ?_ (fun j _ => ?_) ?_
    · have hsame : (Stage.outside : Stage δ).domainRole i = (g.stage t).domainRole i :=
        (congrArg (Stage.domainRole i) hst).symm
      rw [update_role (Stage.domainRole i) hsame]
      exact (h.domain i).wakeUp
    · exact (congrArg (Stage.domainRole j) hst).symm
    · rintro _ _ ⟨⟩
  · rename_i d i hst
    obtain ⟨⟩ := hstep
    exact h.releaseBoth (.inl hst)
  · cases hstep
  · cases hstep

theorem step {a : GateAction τ δ} (hstep : g.step cfg a = some g') : Kept cfg g' := by
  cases a with
  | check t d v =>
    obtain ⟨hst, hgoes⟩ := Option.ite_none_right_eq_some.mp hstep
    have hidle : (g.stage t).Idle := hst.imp_right fun hnaps => ⟨d, hnaps⟩
    cases v with
    | admits =>
      obtain ⟨⟩ := hgoes
      exact h.acquireGlobal hidle
    | naps =>
      obtain ⟨⟩ := hgoes
      exact h.setIdle hidle (.inr ⟨d, rfl⟩)
    | raises =>
      obtain ⟨⟩ := hgoes
      exact h.setIdle hidle (.inl rfl)
  | resume t => exact h.resume hstep
  | cancel t => exact h.cancel hstep
  | unwind t => exact h.unwind hstep
  | grant t =>
    unfold Gate.step at hstep
    simp only at hstep
    split at hstep
    · rename_i d i hst
      obtain ⟨⟩ := hstep
      exact h.setStage (congrArg Stage.globalRole hst).symm
        (fun j => (congrArg (Stage.domainRole j) hst).symm) (congrArg Stage.uses hst).symm
    · cases hstep
  | leave t =>
    unfold Gate.step at hstep
    simp only at hstep
    split at hstep
    · rename_i d i hst
      obtain ⟨⟩ := hstep
      exact h.releaseBoth (.inr hst)
    · cases hstep
  | releaseDomain d =>
    obtain ⟨⟩ := hstep
    exact h.releaseDomain d

end

end Kept

/-! ## Runs -/

abbrev GateRun [DecidableEq τ] [DecidableEq δ] (cfg : GateConfig) :=
  Run (fun g : Gate τ δ => g = Gate.new cfg) (fun g a g' => g.step cfg a = some g')

section

variable {cfg : GateConfig} {g g' : Gate τ δ} {t : τ} {d : δ} {i : ℕ}

theorem Kept.inside_le (h : Kept cfg g) :
    {t | ∃ d i, g.stage t = .inside d i}.encard ≤ cfg.globalConcurrency := by
  refine (Set.encard_le_encard ?_).trans h.global.encard_le
  rintro t ⟨d, i, ht⟩
  exact congrArg Stage.globalRole ht

theorem Kept.permits_back (h : Kept cfg g) (hidle : ∀ t, (g.stage t).Idle) :
    g.global.value = cfg.globalConcurrency ∧
      ∀ i, (g.sems i).value = cfg.perDomainConcurrency := by
  refine ⟨h.global.value_eq fun t => (hidle t).roles.1, fun i => (h.domain i).value_eq fun t => ?_⟩
  exact Stage.domainRole_of_uses_none (hidle t).roles.2 i

variable [DecidableEq δ]

theorem Kept.inside_domain_le (h : Kept cfg g) (d : δ) :
    {t | ∃ i, g.stage t = .inside d i}.encard ≤ cfg.perDomainConcurrency := by
  rcases Set.eq_empty_or_nonempty {t | ∃ i, g.stage t = .inside d i} with hnone | ⟨t₀, i₀, ht₀⟩
  · rw [hnone, Set.encard_empty]
    exact zero_le
  · refine (Set.encard_le_encard ?_).trans (h.domain i₀).encard_le
    rintro t ⟨i, ht⟩
    have hsame : (i, g) = (i₀, g) :=
      (h.domainSem_eq d (.inr ht)).symm.trans (h.domainSem_eq d (.inr ht₀))
    cases hsame
    exact (Stage.Holds.roles (.inr ht)).2.1

variable [DecidableEq τ]

theorem Kept.leaves (h : Kept cfg g)
    (hout : g.stage t = .inside d i ∧ g.step cfg (.leave t) = some g' ∨
      g.stage t = .waitsBucket d i ∧ g.step cfg (.unwind t) = some g') :
    g'.global = g.global.release ∧ g'.sems = update g.sems i (g.sems i).release ∧
      g'.perDomain = g.perDomain := by
  have hreleases : (g.stage t).Holds d i ∧ (g.releaseBoth cfg d).setStage t .outside = g' := by
    rcases hout with ⟨hst, hstep⟩ | ⟨hst, hstep⟩
    · rw [Gate.step, hst] at hstep
      exact ⟨.inr hst, Option.some.inj hstep⟩
    · rw [Gate.step, Gate.unwind, hst] at hstep
      exact ⟨.inl hst, Option.some.inj hstep⟩
  obtain ⟨hholds, rfl⟩ := hreleases
  unfold Gate.releaseBoth
  rw [h.domainSem_eq d hholds]
  exact ⟨rfl, rfl, rfl⟩

theorem kept_run {h : List (Gate τ δ × GateAction τ δ)} (hrun : GateRun cfg h g) : Kept cfg g := by
  apply hrun.always
  · rintro _ rfl
    exact Kept.new
  · intro _ _ _ hkept
    exact hkept.step

/-- In every interleaving of the tasks: the limits hold, a task that leaves the slot, or fails
at the bucket, releases the objects that it acquired, and all permits are back when every task
is outside or sleeps before the breaker. -/
theorem gate_limits_hold (h : List (Gate τ δ × GateAction τ δ)) (g : Gate τ δ)
    (hrun : GateRun cfg h g) :
    {t | ∃ d i, g.stage t = .inside d i}.encard ≤ cfg.globalConcurrency ∧
      (∀ d, {t | ∃ i, g.stage t = .inside d i}.encard ≤ cfg.perDomainConcurrency) ∧
      (∀ t d i g', g.stage t = .inside d i ∧ g.step cfg (.leave t) = some g' ∨
          g.stage t = .waitsBucket d i ∧ g.step cfg (.unwind t) = some g' →
        g'.global = g.global.release ∧ g'.sems = update g.sems i (g.sems i).release ∧
          g'.perDomain = g.perDomain) ∧
      ((∀ t, (g.stage t).Idle) → g.global.value = cfg.globalConcurrency ∧
        ∀ i, (g.sems i).value = cfg.perDomainConcurrency) := by
  have hkept := kept_run hrun
  exact ⟨hkept.inside_le, hkept.inside_domain_le, fun _ _ _ _ => hkept.leaves,
    hkept.permits_back⟩

end

/-- Two tasks at one domain with one permit: the second waits, the entry is not deleted under
it, and it gets the permit that the first releases. -/
theorem second_task_inside : ∃ (h : List (Gate ℕ ℕ × GateAction ℕ ℕ)) (g : Gate ℕ ℕ),
    GateRun ⟨2, 1⟩ h g ∧ g.stage 0 = .outside ∧ g.stage 1 = .inside 7 0 ∧
      {t | ∃ i, g.stage t = .inside 7 i}.encard ≤ 1 := by
  obtain ⟨h, g, hrun, hfirst, hsecond⟩ := Run.exists_of_exec
    (fun g : Gate ℕ ℕ => g = Gate.new ⟨2, 1⟩) (Gate.step ⟨2, 1⟩) (Gate.new ⟨2, 1⟩) rfl
    [.check 0 7 .admits, .grant 0, .check 1 7 .admits, .releaseDomain 7, .leave 0,
      .releaseDomain 7, .resume 1, .grant 1]
    (fun p => p.2.stage 0 = .outside ∧ p.2.stage 1 = .inside 7 0)
    (by decide +kernel)
  exact ⟨h, g, hrun, hfirst, hsecond, (gate_limits_hold h g hrun).2.1 7⟩

end RateLimit

end EmailExtractor
