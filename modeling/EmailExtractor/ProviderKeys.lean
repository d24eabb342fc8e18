import EmailExtractor.Library.Run
import EmailExtractor.Library.Text
import Mathlib.Algebra.Order.Ring.Rat
import Mathlib.Data.List.Infix

/-!
# The keys of the providers

`app/provider_keys.py` in one of several processes, which meet in the table `provider_keys`
alone: any of them may commit at any time. The process uses its own copy of what it could
decrypt and reloads it in two steps, the query and the assignment, one reload at a time.
-/

namespace EmailExtractor

namespace ProviderKeys

open List

inductive Provider
  | jina
  | typesafe
  deriving DecidableEq

structure KeyRow where
  ciphertext : Str
  nonce : Str

abbrev Table := Provider → Option KeyRow

/-- `log` are the tables committed so far. Of it, `reading` is what the query of a reload has
seen, and `seen` what was assigned. -/
structure Keyring where
  log : List Table := []
  keys : Provider → Option Str := fun _ => none
  failed : Provider → Bool := fun _ => false
  loadedAt : ℚ := 0
  reading : Option (List Table) := none
  seen : List Table := []

/-- `save` and `clear` of any process commit a row or none. -/
inductive KeyEvent
  | commit (q : Provider) (row : Option KeyRow)
  | refresh (force : Bool) (now : ℚ)
  | fails
  | assigns (now : ℚ)

def refreshS : ℚ := 30

def tableOf (log : List Table) : Table := log.getLastD fun _ => none

variable (decrypt : Provider → KeyRow → Option Str) (env : Provider → Str)

namespace Keyring

variable (s : Keyring)

def current (q : Provider) : Str := if s.failed q then [] else (s.keys q).getD (env q)

def assign (log : List Table) (now : ℚ) : Keyring :=
  { s with
    keys := fun q => (tableOf log q).bind (decrypt q)
    failed := fun q => (tableOf log q).any fun row => (decrypt q row).isNone
    loadedAt := now, reading := none, seen := log }

def step : KeyEvent → Option Keyring
  | .commit q row => some { s with log := s.log ++ [Function.update (tableOf s.log) q row] }
  | .refresh force now =>
    if s.reading.isSome then none
    else if !force && now - s.loadedAt < refreshS then some s
    else some { s with reading := some s.log }
  | .fails => s.reading.map fun _ => { s with reading := none }
  | .assigns now => s.reading.map fun log => s.assign decrypt log now

end Keyring

def KeysRun : List (Keyring × KeyEvent) → Keyring → Prop :=
  Transition.Run (fun s => s = {}) fun s e s' => s.step decrypt e = some s'

/-- The key to use under a table: a saved one hides the environment's, readable or not. -/
def inForce (t : Table) (q : Provider) : Str :=
  (t q).elim (env q) fun row => (decrypt q row).getD []

structure Keyring.Kept (s : Keyring) : Prop where
  current : ∀ q, s.current env q = inForce decrypt env (tableOf s.seen) q
  seen : s.seen <+: s.log
  reading : ∀ log ∈ s.reading, s.seen <+: log ∧ log <+: s.log

variable {decrypt env} {s s' : Keyring}

theorem Keyring.Kept.assign {log : List Table} (hs : s.Kept decrypt env)
    (hlog : log ∈ s.reading) (now : ℚ) : (s.assign decrypt log now).Kept decrypt env := by
  refine ⟨fun q => ?_, (hs.reading log hlog).2, nofun⟩
  obtain hrow | ⟨row, hrow⟩ := (tableOf log q).eq_none_or_eq_some
  · simp [Keyring.current, Keyring.assign, inForce, hrow]
  · cases hkey : decrypt q row <;> simp [Keyring.current, Keyring.assign, inForce, hrow, hkey]

theorem Keyring.Kept.step {e : KeyEvent} (hs : s.Kept decrypt env)
    (hstep : s.step decrypt e = some s') : s'.Kept decrypt env ∧ s.seen <+: s'.seen := by
  cases e with
  | commit q row =>
    cases hstep
    have hlog := prefix_append s.log [Function.update (tableOf s.log) q row]
    exact ⟨⟨hs.current, hs.seen.trans hlog, fun log h =>
      ⟨(hs.reading log h).1, (hs.reading log h).2.trans hlog⟩⟩, prefix_rfl⟩
  | refresh force now =>
    obtain ⟨-, hstep⟩ := Option.ite_none_left_eq_some.mp hstep
    split at hstep <;> cases hstep
    · exact ⟨hs, prefix_rfl⟩
    · refine ⟨⟨hs.current, hs.seen, ?_⟩, prefix_rfl⟩
      rintro _ ⟨⟩
      exact ⟨hs.seen, prefix_rfl⟩
  | fails =>
    obtain ⟨_, -, rfl⟩ := Option.map_eq_some_iff.mp hstep
    exact ⟨⟨hs.current, hs.seen, nofun⟩, prefix_rfl⟩
  | assigns now =>
    obtain ⟨log, hlog, rfl⟩ := Option.map_eq_some_iff.mp hstep
    exact ⟨hs.assign hlog now, (hs.reading log hlog).1⟩

/-- A process uses the keys of one committed table, and never goes back to an older one. -/
theorem keys_in_order {h : List (Keyring × KeyEvent)} (hrun : KeysRun decrypt h s) :
    s.Kept decrypt env ∧ ∀ x ∈ h, x.1.seen <+: s.seen := by
  refine hrun.always_history (I := fun h s => Keyring.Kept decrypt env s ∧
    ∀ x ∈ h, x.1.seen <+: s.seen) ?_ ?_
  · rintro _ rfl
    exact ⟨⟨fun _ => rfl, prefix_rfl, nofun⟩, nofun⟩
  · rintro h s e s' ⟨hs, hbefore⟩ hstep
    obtain ⟨hs', hseen⟩ := hs.step hstep
    exact ⟨hs', forall_mem_cons.mpr ⟨hseen, fun x hx => (hbefore x hx).trans hseen⟩⟩

/-- A saved key that cannot be decrypted leaves the process without one. -/
theorem keys_in_order_unreadable : ∃ h s, KeysRun (fun _ _ => none) h s ∧
    s.current (fun _ => ['e']) .jina = [] ∧ s.Kept (fun _ _ => none) (fun _ => ['e']) ∧
      ∀ x ∈ h, x.1.seen <+: s.seen := by
  obtain ⟨h, s, hrun, hnone⟩ := Transition.Run.exists_of_exec (fun s => s = {})
    (Keyring.step fun _ _ => none) _ rfl
    [.refresh true 1, .commit .jina (some ⟨[], []⟩), .assigns 1, .refresh true 2, .assigns 2]
    (fun p => p.2.current (fun _ => ['e']) .jina = []) (by decide)
  exact ⟨h, s, hrun, hnone, keys_in_order hrun⟩

end ProviderKeys

end EmailExtractor
