import Mathlib.Data.Nat.Notation

/-!
# Computations that await answers

A computation that may stop at a question and go on with its answer. It can be run to
its end by a function that answers every question, or one answer at a time. A loop whose
rounds await answers ends if a measure falls with every round, and what it asked and
returned is known from an invariant of its rounds.
-/

/-- A computation with questions in `Q`, answers in `A`, exceptions in `ε`. -/
inductive Coroutine (Q A ε α : Type)
  | ret (a : α)
  | fail (e : ε)
  | ask (q : Q) (k : A → Coroutine Q A ε α)

namespace Coroutine

variable {Q A ε α β : Type}

def bind (c : Coroutine Q A ε α) (f : α → Coroutine Q A ε β) : Coroutine Q A ε β :=
  match c with
  | ret a => f a
  | fail e => fail e
  | ask q k => ask q fun a => bind (k a) f

def lift : Except ε α → Coroutine Q A ε α
  | .ok a => ret a
  | .error e => fail e

def run (answer : Q → A) : Coroutine Q A ε α → Except ε α
  | ret a => .ok a
  | fail e => .error e
  | ask q k => run answer (k (answer q))

@[simp] theorem run_lift (answer : Q → A) (x : Except ε α) :
    run answer (lift x : Coroutine Q A ε α) = x := by
  cases x <;> rfl

@[simp] theorem run_bind (answer : Q → A) (c : Coroutine Q A ε α)
    (f : α → Coroutine Q A ε β) :
    run answer (bind c f) = (run answer c >>= fun a => run answer (f a)) := by
  induction c with
  | ret a => rfl
  | fail e => rfl
  | ask q k ih => exact ih (answer q)

def asked (answer : Q → A) : Coroutine Q A ε α → List Q
  | ret _ => []
  | fail _ => []
  | ask q k => q :: asked answer (k (answer q))

@[simp] theorem asked_lift (answer : Q → A) (x : Except ε α) :
    asked answer (lift x : Coroutine Q A ε α) = [] := by
  cases x <;> rfl

theorem asked_bind_of_ok {answer : Q → A} {c : Coroutine Q A ε α} {a : α}
    (h : run answer c = .ok a) (f : α → Coroutine Q A ε β) :
    asked answer (bind c f) = asked answer c ++ asked answer (f a) := by
  induction c with
  | ret b =>
    cases h
    rfl
  | fail e => cases h
  | ask q k ih => exact congrArg (q :: ·) (ih (answer q) h)

theorem asked_bind_of_error {answer : Q → A} {c : Coroutine Q A ε α} {e : ε}
    (h : run answer c = .error e) (f : α → Coroutine Q A ε β) :
    asked answer (bind c f) = asked answer c := by
  induction c with
  | ret b => cases h
  | fail e => rfl
  | ask q k ih => exact congrArg (q :: ·) (ih (answer q) h)

theorem bind_assoc {γ : Type} (c : Coroutine Q A ε α) (f : α → Coroutine Q A ε β)
    (g : β → Coroutine Q A ε γ) : bind (bind c f) g = bind c fun a => bind (f a) g := by
  induction c with
  | ret a => rfl
  | fail e => rfl
  | ask q k ih => exact congrArg (ask q) (funext ih)

/-! ## All answers -/

/-- Whatever the answers, what is returned has the property. -/
def All (P : α → Prop) : Coroutine Q A ε α → Prop
  | ret a => P a
  | fail _ => True
  | ask _ k => ∀ x, All P (k x)

theorem all_lift {P : α → Prop} {x : Except ε α} :
    All P (lift x : Coroutine Q A ε α) ↔ ∀ a, x = .ok a → P a := by
  cases x with
  | ok a =>
    refine ⟨fun h b hb => ?_, fun h => h a rfl⟩
    cases hb
    exact h
  | error e =>
    refine ⟨fun _ b hb => ?_, fun _ => trivial⟩
    cases hb

theorem all_bind {P : β → Prop} {c : Coroutine Q A ε α} {f : α → Coroutine Q A ε β} :
    All P (bind c f) ↔ All (fun a => All P (f a)) c := by
  induction c with
  | ret a | fail e => exact Iff.rfl
  | ask q k ih => exact forall_congr' ih

theorem bind_congr {c : Coroutine Q A ε α} {f g : α → Coroutine Q A ε β}
    (h : All (fun a => f a = g a) c) : bind c f = bind c g := by
  induction c with
  | ret a => exact h
  | fail e => rfl
  | ask q k ih => exact congrArg (ask q) (funext fun x => ih x (h x))

theorem All.imp {P R : α → Prop} {c : Coroutine Q A ε α} (h : All P c) (hR : ∀ a, P a → R a) :
    All R c := by
  induction c with
  | ret a => exact hR a h
  | fail e => trivial
  | ask q k ih => exact fun x => ih x (h x)

/-! ## Loops -/

section Loop

variable {σ : Type} {round : σ → Coroutine Q A ε (α ⊕ σ)} {answer : Q → A}

/-- What is done after a round of a loop: return from it, or go on with `rest`. -/
def next (rest : σ → Coroutine Q A ε β) (done : α → β) : α ⊕ σ → Coroutine Q A ε β
  | .inl a => ret (done a)
  | .inr s => rest s

/-- At most `n` rounds of a loop, each of which returns from the loop or goes on from a new
state; nothing when the rounds run out. -/
def loop (round : σ → Coroutine Q A ε (α ⊕ σ)) : ℕ → σ → Coroutine Q A ε (Option α)
  | 0, _ => ret none
  | n + 1, s => bind (round s) (next (loop round n) some)

/-- The measure falls, if the round goes on. -/
def Falls (μ : σ → ℕ) (s : σ) : α ⊕ σ → Prop
  | .inl _ => True
  | .inr s' => μ s' < μ s

/-- If a measure falls with every round, the loop ends, and it computes what satisfies its
equation. -/
theorem loop_eq (μ : σ → ℕ) (hμ : ∀ s, All (Falls μ s) (round s))
    {rest : σ → Coroutine Q A ε α} (hrest : ∀ s, rest s = bind (round s) (next rest id)) {n : ℕ}
    {s : σ} (h : μ s < n) : loop round n s = bind (rest s) fun a => ret (some a) := by
  induction n generalizing s with
  | zero => exact absurd h (Nat.not_lt_zero _)
  | succ n ih =>
    rw [loop, hrest s, bind_assoc]
    refine bind_congr ((hμ s).imp fun a ha => ?_)
    cases a with
    | inl a => rfl
    | inr s' => exact ih (Nat.lt_of_lt_of_le ha (Nat.le_of_lt_succ h))

/-- After a round the invariant holds or, if the loop is left, what is to be shown. -/
def Keeps (I : List Q → σ → Prop) (P : List Q → Except ε α → Prop) (qs : List Q) :
    Except ε (α ⊕ σ) → Prop
  | .ok (.inl a) => P qs (.ok a)
  | .ok (.inr s) => I qs s
  | .error e => P qs (.error e)

/-- An invariant of the rounds, and of the questions so far, tells what the questions and
the outcome of the loop are. -/
theorem loop_invariant {I : List Q → σ → Prop} {P : List Q → Except ε α → Prop}
    (hround : ∀ qs s, I qs s → Keeps I P (qs ++ asked answer (round s)) (run answer (round s)))
    (n : ℕ) {qs : List Q} {s : σ} (hI : I qs s) {out : Except ε α}
    (h : run answer (loop round n s) = out.map some) :
    P (qs ++ asked answer (loop round n s)) out := by
  induction n generalizing qs s with
  | zero => cases out <;> cases h
  | succ n ih =>
    have hkeeps := hround qs s hI
    rw [loop, run_bind] at h
    rw [loop]
    cases hrun : run answer (round s) with
    | error e =>
      rw [hrun] at h hkeeps
      rw [asked_bind_of_error hrun]
      cases out with
      | ok a => cases h
      | error e' =>
        cases h
        exact hkeeps
    | ok next =>
      rw [hrun] at h hkeeps
      rw [asked_bind_of_ok hrun]
      cases next with
      | inl a =>
        cases out with
        | error e => cases h
        | ok b =>
          cases h
          rwa [← List.append_nil (asked answer (round s))] at hkeeps
      | inr s' =>
        rw [← List.append_assoc]
        exact ih hkeeps h

end Loop

end Coroutine
