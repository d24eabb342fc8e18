import Mathlib.Data.Finset.Basic
import Mathlib.Data.Finset.Filter

/-!
# Transactions under READ COMMITTED

A database is one version of every row, a function on the keys; the finite set
`rows` says which keys hold a row. Sessions run programs given as control-flow
graphs: at a program point a session executes one statement, commits, rolls back,
or is finished.

A statement takes its snapshot when it starts: the committed versions, with the
session's own uncommitted ones in their place. It then visits the rows that its
`WHERE` clause selects in that snapshot, one at a time and in any order. A row
held by another session makes it wait; a row it can take is checked again in its
current version, everything else still read from the snapshot, and is then held,
with the new version, until the session commits or rolls back. A statement that
only locks writes the version it found.
-/

namespace ReadCommitted

/-- One version of every row. -/
abbrev Db {K : Type} (V : K → Type) := ∀ k, V k

/-- An `UPDATE` or `SELECT ... FOR UPDATE`. Both clauses may read the snapshot. -/
structure Stmt {K : Type} (V : K → Type) where
  cond : Db V → ∀ k, V k → Bool
  set : Db V → ∀ k, V k → V k

def Stmt.selected {K : Type} {V : K → Type} (st : Stmt V) (rows : Finset K) (db : Db V) :
    Finset K :=
  rows.filter fun k => st.cond db k (db k)

/-- The database after the statement, executed with nobody else around. -/
def Stmt.apply {K : Type} [DecidableEq K] {V : K → Type} (st : Stmt V) (rows : Finset K)
    (db : Db V) : Db V := fun k =>
  if k ∈ st.selected rows db then st.set db k (db k) else db k

inductive Act {K : Type} (V : K → Type)
  | exec (s : Stmt V)
  | commit
  | rollback
  | halt

/-- The programs of the sessions, as control-flow graphs over `P`. `next` is given
the rows that the statement just executed has changed. -/
structure Machine {K : Type} (V : K → Type) (T P : Type) where
  act : T → P → Act V
  next : T → P → List K → P

structure Active {K : Type} (V : K → Type) where
  snap : Db V
  todo : Finset K
  touched : List K

structure Session {K : Type} (V : K → Type) (P : Type) where
  pc : P
  active : Option (Active V)

/-- The session's statement has yet to visit the row. -/
def Session.Awaits {K : Type} {V : K → Type} {P : Type} (x : Session V P) (k : K) : Prop :=
  ∃ a ∈ x.active, k ∈ a.todo

instance {K : Type} [DecidableEq K] {V : K → Type} {P : Type} (x : Session V P) (k : K) :
    Decidable (x.Awaits k) :=
  inferInstanceAs (Decidable (∃ a ∈ x.active, k ∈ a.todo))

@[simp] theorem Session.awaits_none {K : Type} {V : K → Type} {P : Type} {pc : P} {k : K} :
    ¬ (⟨pc, none⟩ : Session V P).Awaits k := by
  simp [Session.Awaits]

@[simp] theorem Session.awaits_some {K : Type} {V : K → Type} {P : Type} {pc : P}
    {a : Active V} {k : K} : (⟨pc, some a⟩ : Session V P).Awaits k ↔ k ∈ a.todo := by
  simp [Session.Awaits]

/-- The committed versions, the held rows with their holder and its version, and
the sessions. -/
structure Sys {K : Type} (V : K → Type) (T P : Type) where
  committed : Db V
  held : ∀ k, Option (T × V k)
  session : T → Session V P

inductive Move (K : Type)
  | start
  | row (k : K)
  | stop
  | close
  deriving DecidableEq

variable {K : Type} {V : K → Type} {T P : Type}

namespace Sys

def Free (s : Sys V T P) (t : T) (k : K) : Prop := ∀ p ∈ s.held k, p.1 = t

theorem Free.not_held {s : Sys V T P} {t t' : T} {k : K} (h : s.Free t k) (hne : t' ≠ t)
    (v : V k) : s.held k ≠ some (t', v) := by
  intro hh
  exact hne (h (t', v) hh)

variable [DecidableEq T]

instance (s : Sys V T P) (t : T) (k : K) : Decidable (s.Free t k) :=
  inferInstanceAs (Decidable (∀ p ∈ s.held k, p.1 = t))

def view (s : Sys V T P) (t : T) : Db V := fun k =>
  match s.held k with
  | some (t', v) => if t' = t then v else s.committed k
  | none => s.committed k

def release (s : Sys V T P) (t : T) : ∀ k, Option (T × V k) := fun k =>
  (s.held k).filter fun p => decide (p.1 ≠ t)

def setSession (s : Sys V T P) (t : T) (x : Session V P) : Sys V T P :=
  { s with session := Function.update s.session t x }

variable {s : Sys V T P} {t t' : T} {k : K}

theorem view_of_held {v : V k} (h : s.held k = some (t, v)) : s.view t k = v := by
  simp [view, h]

theorem view_of_not_held (h : ∀ v, s.held k ≠ some (t, v)) :
    s.view t k = s.committed k := by
  unfold view
  cases hk : s.held k with
  | none => rfl
  | some p =>
    obtain ⟨t', v⟩ := p
    have hne : t' ≠ t := by
      rintro rfl
      exact h v hk
    simp [hne]

theorem view_cases (s : Sys V T P) (t : T) (k : K) :
    s.held k = some (t, s.view t k) ∨
      ((∀ v, s.held k ≠ some (t, v)) ∧ s.view t k = s.committed k) := by
  by_cases h : ∃ v, s.held k = some (t, v)
  · obtain ⟨v, hv⟩ := h
    left
    rw [view_of_held hv]
    exact hv
  · right
    have hno : ∀ v, s.held k ≠ some (t, v) := fun v hv => h ⟨v, hv⟩
    exact ⟨hno, view_of_not_held hno⟩

@[simp] theorem view_setSession (x : Session V P) :
    (s.setSession t' x).view t = s.view t := rfl

theorem session_setSession_of_ne (x : Session V P) (h : t' ≠ t) :
    (s.setSession t x).session t' = s.session t' := by
  simp [setSession, h]

@[simp] theorem session_setSession_self (x : Session V P) :
    (s.setSession t x).session t = x := by
  simp [setSession]

theorem release_of_ne {v : V k} (h : t' ≠ t) :
    s.release t k = some (t', v) ↔ s.held k = some (t', v) := by
  unfold release
  constructor
  · intro hr
    exact (Option.filter_eq_some_iff.mp hr).1
  · intro hh
    exact Option.filter_eq_some_iff.mpr ⟨hh, by simpa using h⟩

theorem release_self (v : V k) : s.release t k ≠ some (t, v) := by
  intro hr
  have := (Option.filter_eq_some_iff.mp hr).2
  simp at this

theorem ne_of_release {v : V k} (h : s.release t k = some (t', v)) : t' ≠ t := by
  rintro rfl
  exact release_self v h

theorem release_of_not_held (h : ∀ v, s.held k ≠ some (t, v)) : s.release t k = s.held k := by
  unfold release
  cases hk : s.held k with
  | none => rfl
  | some p =>
    have hne : p.1 ≠ t := by
      rintro rfl
      exact h p.2 hk
    simp [Option.filter, hne]

def commit (s : Sys V T P) (t : T) : Sys V T P :=
  { s with committed := s.view t, held := s.release t }

def abort (s : Sys V T P) (t : T) : Sys V T P := { s with held := s.release t }

theorem held_commit_of_ne {v : V k} (h : t' ≠ t) :
    (s.commit t).held k = some (t', v) ↔ s.held k = some (t', v) := release_of_ne h

theorem held_abort_of_ne {v : V k} (h : t' ≠ t) :
    (s.abort t).held k = some (t', v) ↔ s.held k = some (t', v) := release_of_ne h

@[simp] theorem view_commit_self : (s.commit t).view t = s.view t := by
  funext k
  exact view_of_not_held release_self

@[simp] theorem view_abort_self : (s.abort t).view t = s.committed := by
  funext k
  exact view_of_not_held release_self

theorem view_commit_cases (s : Sys V T P) (k : K) (h : t' ≠ t) :
    ((s.commit t).view t' k = s.view t' k ∧ s.view t k = s.committed k) ∨
      ((s.commit t).view t' k = s.view t k ∧ s.view t' k = s.committed k) := by
  rcases s.view_cases t' k with hv | ⟨hno, heq⟩
  · left
    have ht : ∀ v, s.held k ≠ some (t, v) := by
      intro v hv'
      rw [hv] at hv'
      exact h (congrArg Prod.fst (Option.some.inj hv'))
    exact ⟨view_of_held ((held_commit_of_ne h).mpr hv), view_of_not_held ht⟩
  · right
    refine ⟨view_of_not_held ?_, heq⟩
    intro v hv
    exact hno v ((held_commit_of_ne h).mp hv)

theorem view_abort_of_ne (h : t' ≠ t) : (s.abort t).view t' = s.view t' := by
  funext k
  rcases s.view_cases t' k with hv | ⟨hno, heq⟩
  · exact view_of_held ((held_abort_of_ne h).mpr hv)
  · rw [heq]
    apply view_of_not_held
    intro v hv
    exact hno v ((held_abort_of_ne h).mp hv)

end Sys

variable [DecidableEq T] [DecidableEq K]

def Sys.take (s : Sys V T P) (t : T) (k : K) (v : V k) : Sys V T P :=
  { s with held := Function.update s.held k (some (t, v)) }

namespace Sys

variable {s : Sys V T P} {t t' : T} {k k' : K} {v : V k}

omit [DecidableEq T] in
theorem held_take_self : (s.take t k v).held k = some (t, v) := by
  simp [take]

omit [DecidableEq T] in
theorem held_take_of_ne (h : k' ≠ k) : (s.take t k v).held k' = s.held k' := by
  simp [take, h]

theorem view_take_self : (s.take t k v).view t k = v := view_of_held held_take_self

theorem view_take_of_ne (h : k' ≠ k) : (s.take t k v).view t' k' = s.view t' k' := by
  unfold view
  rw [held_take_of_ne h]
  rfl

theorem view_take_other (hfree : s.Free t k) (h : t' ≠ t) :
    (s.take t k v).view t' = s.view t' := by
  funext k'
  by_cases hk : k' = k
  · subst hk
    have h1 : ∀ w, (s.take t k' v).held k' ≠ some (t', w) := by
      intro w hw
      rw [held_take_self] at hw
      exact h (congrArg Prod.fst (Option.some.inj hw)).symm
    rw [view_of_not_held h1, view_of_not_held (hfree.not_held h)]
    rfl
  · exact view_take_of_ne hk

end Sys

/-- The statement `st` of session `t` starts: it takes its snapshot and selects its
rows. -/
def Sys.begin (s : Sys V T P) (rows : Finset K) (t : T) (st : Stmt V) : Sys V T P :=
  s.setSession t ⟨(s.session t).pc,
    some ⟨s.view t, st.selected rows (s.view t), []⟩⟩

def Sys.hit (s : Sys V T P) (t : T) (st : Stmt V) (a : Active V) (k : K) : Sys V T P :=
  (s.take t k (st.set a.snap k (s.view t k))).setSession t
    ⟨(s.session t).pc, some { a with todo := a.todo.erase k, touched := a.touched ++ [k] }⟩

def Sys.pass (s : Sys V T P) (t : T) (a : Active V) (k : K) : Sys V T P :=
  s.setSession t ⟨(s.session t).pc, some { a with todo := a.todo.erase k }⟩

namespace Sys

variable {s : Sys V T P} {t t' : T} {k k' : K} {st : Stmt V} {a : Active V}

theorem view_hit_self : (s.hit t st a k).view t k = st.set a.snap k (s.view t k) :=
  view_take_self

theorem view_hit_of_ne (h : k' ≠ k) : (s.hit t st a k).view t' k' = s.view t' k' :=
  view_take_of_ne h

theorem view_hit_other (hfree : s.Free t k) (h : t' ≠ t) :
    (s.hit t st a k).view t' = s.view t' := view_take_other hfree h

theorem session_hit_self : (s.hit t st a k).session t =
    ⟨(s.session t).pc, some { a with todo := a.todo.erase k, touched := a.touched ++ [k] }⟩ :=
  session_setSession_self _

theorem session_hit_of_ne (h : t' ≠ t) : (s.hit t st a k).session t' = s.session t' :=
  session_setSession_of_ne _ h

theorem held_hit_self : (s.hit t st a k).held k = some (t, st.set a.snap k (s.view t k)) :=
  held_take_self

theorem held_hit_of_ne (h : k' ≠ k) : (s.hit t st a k).held k' = s.held k' :=
  held_take_of_ne h

theorem held_hit_cases {v : V k'} (h : (s.hit t st a k).held k' = some (t', v)) :
    (k' = k ∧ t' = t ∧ HEq v (st.set a.snap k (s.view t k))) ∨
      (k' ≠ k ∧ s.held k' = some (t', v)) := by
  by_cases hk : k' = k
  · subst hk
    left
    have hv : (t, st.set a.snap k' (s.view t k')) = (t', v) :=
      Option.some.inj (held_hit_self.symm.trans h)
    cases hv
    exact ⟨rfl, rfl, HEq.rfl⟩
  · right
    exact ⟨hk, (held_hit_of_ne hk).symm.trans h⟩

end Sys

/-- One step of session `t`; `none` when the move is not possible. -/
def step (M : Machine V T P) (rows : Finset K) (s : Sys V T P) (l : T × Move K) :
    Option (Sys V T P) :=
  let t := l.1
  let pc := (s.session t).pc
  match l.2, M.act t pc, (s.session t).active with
  | .start, .exec st, none => some (s.begin rows t st)
  | .row k, .exec st, some a =>
    if k ∈ a.todo ∧ s.Free t k then
      some (if st.cond a.snap k (s.view t k) then s.hit t st a k else s.pass t a k)
    else none
  | .stop, .exec _, some a =>
    if a.todo = ∅ then some (s.setSession t ⟨M.next t pc a.touched, none⟩) else none
  | .close, .commit, none => some ((s.commit t).setSession t ⟨M.next t pc [], none⟩)
  | .close, .rollback, none => some ((s.abort t).setSession t ⟨M.next t pc [], none⟩)
  | _, _, _ => none

/-- The same step as a relation, one constructor for each thing that can
happen. -/
inductive Step (M : Machine V T P) (rows : Finset K) (s : Sys V T P) :
    T × Move K → Sys V T P → Prop
  | start {t : T} {st : Stmt V} (hact : M.act t (s.session t).pc = .exec st)
      (hidle : (s.session t).active = none) :
      Step M rows s (t, .start) (s.begin rows t st)
  | hit {t : T} {st : Stmt V} {a : Active V} {k : K}
      (hact : M.act t (s.session t).pc = .exec st)
      (hactive : (s.session t).active = some a) (hk : k ∈ a.todo) (hfree : s.Free t k)
      (hcond : st.cond a.snap k (s.view t k) = true) :
      Step M rows s (t, .row k) (s.hit t st a k)
  | pass {t : T} {st : Stmt V} {a : Active V} {k : K}
      (hact : M.act t (s.session t).pc = .exec st)
      (hactive : (s.session t).active = some a) (hk : k ∈ a.todo) (hfree : s.Free t k)
      (hcond : st.cond a.snap k (s.view t k) = false) :
      Step M rows s (t, .row k) (s.pass t a k)
  | stop {t : T} {st : Stmt V} {a : Active V}
      (hact : M.act t (s.session t).pc = .exec st)
      (hactive : (s.session t).active = some a) (hempty : a.todo = ∅) :
      Step M rows s (t, .stop)
        (s.setSession t ⟨M.next t (s.session t).pc a.touched, none⟩)
  | commit {t : T} (hact : M.act t (s.session t).pc = .commit)
      (hidle : (s.session t).active = none) :
      Step M rows s (t, .close)
        ((s.commit t).setSession t ⟨M.next t (s.session t).pc [], none⟩)
  | rollback {t : T} (hact : M.act t (s.session t).pc = .rollback)
      (hidle : (s.session t).active = none) :
      Step M rows s (t, .close)
        ((s.abort t).setSession t ⟨M.next t (s.session t).pc [], none⟩)

theorem step_sound {M : Machine V T P} {rows : Finset K} {s s' : Sys V T P}
    {l : T × Move K} (h : step M rows s l = some s') : Step M rows s l s' := by
  obtain ⟨t, m⟩ := l
  cases hact : M.act t (s.session t).pc with
  | exec st =>
    cases hactive : (s.session t).active with
    | none =>
      cases m with
      | start =>
        simp only [step, hact, hactive, Option.some.injEq] at h
        rw [← h]
        exact .start hact hactive
      | row k | stop => simp [step, hact, hactive] at h
      | close => simp [step, hact] at h
    | some a =>
      cases m with
      | start => simp [step, hact, hactive] at h
      | row k =>
        simp only [step, hact, hactive, Option.ite_none_right_eq_some,
          Option.some.injEq] at h
        obtain ⟨⟨hk, hfree⟩, rfl⟩ := h
        cases hcond : st.cond a.snap k (s.view t k) with
        | true =>
          rw [if_pos rfl]
          exact .hit hact hactive hk hfree hcond
        | false =>
          rw [if_neg (by simp)]
          exact .pass hact hactive hk hfree hcond
      | stop =>
        simp only [step, hact, hactive, Option.ite_none_right_eq_some,
          Option.some.injEq] at h
        obtain ⟨hempty, rfl⟩ := h
        exact .stop hact hactive hempty
      | close => simp [step, hact] at h
  | commit =>
    cases hactive : (s.session t).active with
    | none =>
      cases m with
      | close =>
        simp only [step, hact, hactive, Option.some.injEq] at h
        rw [← h]
        exact .commit hact hactive
      | _ => simp [step, hact] at h
    | some a => cases m <;> simp [step, hact, hactive] at h
  | rollback =>
    cases hactive : (s.session t).active with
    | none =>
      cases m with
      | close =>
        simp only [step, hact, hactive, Option.some.injEq] at h
        rw [← h]
        exact .rollback hact hactive
      | _ => simp [step, hact] at h
    | some a => cases m <;> simp [step, hact, hactive] at h
  | halt => cases m <;> simp [step, hact] at h

/-- A statement in progress only has rows to visit that its snapshot selected. -/
def Selected (M : Machine V T P) (s : Sys V T P) : Prop :=
  ∀ t st a, M.act t (s.session t).pc = .exec st → (s.session t).active = some a →
    ∀ k ∈ a.todo, st.cond a.snap k (a.snap k) = true

omit [DecidableEq K] in
theorem Selected.setSession {M : Machine V T P} {s : Sys V T P} {t : T} {x : Session V P}
    (hsel : Selected M s)
    (hx : ∀ st a, M.act t x.pc = .exec st → x.active = some a →
      ∀ k ∈ a.todo, st.cond a.snap k (a.snap k) = true) :
    Selected M (s.setSession t x) := by
  intro t' st a hact hactive
  by_cases ht : t' = t
  · subst ht
    rw [Sys.session_setSession_self] at hact hactive
    exact hx st a hact hactive
  · rw [Sys.session_setSession_of_ne x ht] at hact hactive
    exact hsel t' st a hact hactive

theorem Selected.step {M : Machine V T P} {rows : Finset K} {s s' : Sys V T P}
    {l : T × Move K} (hsel : Selected M s) (hstep : Step M rows s l s') : Selected M s' := by
  cases hstep with
  | @start t st hact hidle =>
    apply hsel.setSession
    intro st' a hact' ha k hk
    rw [hact] at hact'
    cases hact'
    cases ha
    exact (Finset.mem_filter.mp hk).2
  | @hit t st a k hact hactive _ _ _ =>
    have htake : Selected M (s.take t k (st.set a.snap k (s.view t k))) := hsel
    apply htake.setSession
    intro st' a' hact' ha k' hk'
    cases ha
    exact hsel t st' a hact' hactive k' (Finset.mem_of_mem_erase hk')
  | @pass t st a k hact hactive _ _ _ =>
    apply hsel.setSession
    intro st' a' hact' ha k' hk'
    cases ha
    exact hsel t st' a hact' hactive k' (Finset.mem_of_mem_erase hk')
  | stop _ _ _ =>
    apply hsel.setSession
    intro _ _ _ ha
    simp at ha
  | @commit t _ _ =>
    have hcommit : Selected M (s.commit t) := hsel
    apply hcommit.setSession
    intro _ _ _ ha
    simp at ha
  | @rollback t _ _ =>
    have habort : Selected M (s.abort t) := hsel
    apply habort.setSession
    intro _ _ _ ha
    simp at ha

end ReadCommitted
