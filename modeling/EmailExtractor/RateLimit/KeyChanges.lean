import EmailExtractor.Library.Dict
import EmailExtractor.Library.SlidingWindow
import EmailExtractor.Library.Text
import Mathlib.Algebra.Order.Floor.Ring
import Mathlib.Data.Rat.Floor
import Mathlib.Tactic.Linarith

/-!
# The limiter of key changes

`_limit_key_changes` of `app/main.py`, in exact arithmetic. For every name a list of times is
kept. It is pruned only when a call of that name is accepted, so it may hold times that have
left the window long ago, but never lacks one that has not: at a later reading of the clock
the recent times of the list are the recent accepted calls.
-/

namespace EmailExtractor

namespace RateLimit

open SlidingWindow List

variable {K : Type*}

def keyChangesPerMinute : ℕ := 10

structure KeyRateLimited where
  message : Str
  retryAfter : ℤ
  deriving DecidableEq

structure KeyCall (K : Type*) where
  name : Str
  now : K
  deriving DecidableEq

section Order

variable [LinearOrder K]

def CallsInOrder (calls : List (KeyCall K)) : Prop := calls.Pairwise fun c d => c.now ≤ d.now

theorem time_le_of_concat {calls : List (KeyCall K)} {c : KeyCall K}
    (h : CallsInOrder (calls ++ [c])) : ∀ d ∈ calls, d.now ≤ c.now :=
  fun d hd => (pairwise_append.mp h).2.2 d hd c (mem_singleton_self c)

end Order

variable [Field K] [LinearOrder K] [FloorRing K]

/-- `int(x)`, which rounds towards zero. -/
def int (x : K) : ℤ := if 0 ≤ x then ⌊x⌋ else ⌈x⌉

theorem lt_int_add_one {x : K} (h : 0 ≤ x) : x < (int x + 1 : ℤ) := by
  rw [int, if_pos h, Int.cast_add, Int.cast_one]
  exact Int.lt_floor_add_one x

/-- `_limit_key_changes`: the exception, if it raises one, and the dictionary `_key_changes`
after it. -/
def limitKeyChanges (keyChanges : Dict Str (List K)) (name : Str) (now : K) :
    Option KeyRateLimited × Dict Str (List K) :=
  let recent := recent (Nat.cast 60) now (keyChanges.getD name [])
  if keyChangesPerMinute ≤ recent.length then
    -- A full list has a first element.
    let first := recent.headD now
    (some ⟨"too many key changes; wait a minute".toList, int (Nat.cast 60 - (now - first)) + 1⟩,
      keyChanges)
  else (none, keyChanges.set name (recent ++ [now]))

/-! ## Sequences of calls -/

def changesAfter (calls : List (KeyCall K)) : Dict Str (List K) :=
  calls.foldl (fun changes c => (limitKeyChanges changes c.name c.now).2) []

def answerTo (before : List (KeyCall K)) (c : KeyCall K) : Option KeyRateLimited :=
  (limitKeyChanges (changesAfter before) c.name c.now).1

/-- The accepted calls of a sequence that follows the calls `before`. -/
def acceptedAfter (before : List (KeyCall K)) : List (KeyCall K) → List (KeyCall K)
  | [] => []
  | c :: calls =>
    if answerTo before c = none then c :: acceptedAfter (before ++ [c]) calls
    else acceptedAfter (before ++ [c]) calls

def acceptedTimes (name : Str) (calls : List (KeyCall K)) : List K :=
  ((acceptedAfter [] calls).filter fun c => decide (c.name = name)).map KeyCall.now

def stored (name : Str) (calls : List (KeyCall K)) : List K := (changesAfter calls).getD name []

/-! ## One more call -/

variable {calls before : List (KeyCall K)} {c d : KeyCall K} {name : Str} {e : KeyRateLimited}

theorem acceptedAfter_concat (before calls : List (KeyCall K)) (c : KeyCall K) :
    acceptedAfter before (calls ++ [c]) = acceptedAfter before calls ++
      if answerTo (before ++ calls) c = none then [c] else [] := by
  induction calls generalizing before with
  | nil =>
    rw [append_nil]
    rfl
  | cons d calls ih =>
    rw [cons_append, acceptedAfter, acceptedAfter, ih, append_assoc,
      singleton_append]
    split
    · rfl
    · rfl

theorem changesAfter_concat (calls : List (KeyCall K)) (c : KeyCall K) :
    changesAfter (calls ++ [c]) = (limitKeyChanges (changesAfter calls) c.name c.now).2 := by
  rw [changesAfter, foldl_append]
  rfl

theorem acceptedTimes_concat (name : Str) (calls : List (KeyCall K)) (c : KeyCall K) :
    acceptedTimes name (calls ++ [c]) = acceptedTimes name calls ++
      if answerTo calls c = none ∧ c.name = name then [c.now] else [] := by
  rw [acceptedTimes, acceptedAfter_concat, filter_append, map_append, nil_append]
  congr 1
  by_cases hnone : answerTo calls c = none
  · by_cases hname : c.name = name
    · simp [hnone, hname]
    · simp [hnone, hname]
  · simp [hnone]

/-- What a call makes of the times that are kept for its name. -/
def keptAfter (now : K) (times : List K) : List K :=
  if keyChangesPerMinute ≤ (recent (Nat.cast 60) now times).length then times
  else recent (Nat.cast 60) now times ++ [now]

theorem stored_concat (name : Str) (calls : List (KeyCall K)) (c : KeyCall K) :
    stored name (calls ++ [c]) =
      if c.name = name then keptAfter c.now (stored name calls) else stored name calls := by
  unfold stored keptAfter
  rw [changesAfter_concat, limitKeyChanges]
  dsimp only
  split
  · rename_i hfull
    split
    · rename_i hname
      rw [hname] at hfull
      rw [if_pos hfull]
    · rfl
  · rename_i hroom
    rw [Dict.getD_set]
    split
    · rename_i hname
      rw [hname] at hroom ⊢
      rw [if_neg hroom]
    · rfl

theorem answerTo_eq_none_iff : answerTo calls c = none ↔
    (recent 60 c.now (stored c.name calls)).length < keyChangesPerMinute := by
  unfold answerTo limitKeyChanges stored
  dsimp only
  rw [Nat.cast_ofNat]
  split
  · rename_i hfull
    exact iff_of_false (Option.some_ne_none _) (Nat.not_lt_of_le hfull)
  · rename_i hroom
    exact iff_of_true rfl (Nat.lt_of_not_le hroom)

theorem retryAfter_eq (h : answerTo calls c = some e) :
    ∃ first rest, recent 60 c.now (stored c.name calls) = first :: rest ∧
      e.retryAfter = int (60 - (c.now - first)) + 1 := by
  unfold answerTo limitKeyChanges at h
  dsimp only at h
  rw [Nat.cast_ofNat] at h
  split at h
  · rename_i hfull
    obtain rfl := Option.some.inj h
    cases hrecent : recent 60 c.now ((changesAfter calls).getD c.name []) with
    | nil =>
      rw [hrecent] at hfull
      exact absurd hfull (Nat.not_succ_le_zero 9)
    | cons first rest => exact ⟨first, rest, hrecent, rfl⟩
  · cases h

theorem answerTo_congr (h : stored c.name calls = stored c.name before) :
    answerTo calls c = answerTo before c := by
  unfold stored at h
  unfold answerTo limitKeyChanges
  dsimp only
  rw [h]
  split
  · rfl
  · rfl

/-! ## What is kept for a name -/

theorem length_stored_le (name : Str) (calls : List (KeyCall K)) :
    (stored name calls).length ≤ keyChangesPerMinute := by
  induction calls using List.reverseRecOn with
  | nil => exact Nat.zero_le _
  | append_singleton calls c ih =>
    rw [stored_concat, keptAfter]
    split
    · split
      · exact ih
      · rename_i hroom
        rw [length_append, length_singleton]
        exact Nat.lt_of_not_le hroom
    · exact ih

theorem stored_filter (name : Str) (calls : List (KeyCall K)) :
    stored name (calls.filter fun c => decide (c.name = name)) = stored name calls := by
  induction calls using List.reverseRecOn with
  | nil => rfl
  | append_singleton calls c ih =>
    rw [filter_append, stored_concat]
    by_cases hname : c.name = name
    · have hself : [c].filter (fun c => decide (c.name = name)) = [c] := by simp [hname]
      rw [hself, stored_concat, ih]
    · have hnone : [c].filter (fun c => decide (c.name = name)) = [] := by simp [hname]
      rw [hnone, append_nil, ih, if_neg hname]

theorem mem_calls_of_acceptedTimes {t : K} (h : t ∈ acceptedTimes name calls) :
    ∃ c ∈ calls, c.now = t := by
  induction calls using List.reverseRecOn with
  | nil => cases h
  | append_singleton calls c ih =>
    rw [acceptedTimes_concat, mem_append] at h
    rcases h with h | h
    · obtain ⟨d, hd, rfl⟩ := ih h
      exact ⟨d, mem_append_left _ hd, rfl⟩
    · split at h
      · exact ⟨c, mem_append_right _ (mem_singleton_self c),
          (mem_singleton.mp h).symm⟩
      · cases h

variable [IsStrictOrderedRing K]

theorem recent_stored (hcalls : CallsInOrder calls) {now : K} (hnow : ∀ c ∈ calls, c.now ≤ now)
    (name : Str) :
    recent 60 now (stored name calls) = recent 60 now (acceptedTimes name calls) := by
  induction calls using List.reverseRecOn with
  | nil => rfl
  | append_singleton calls c ih =>
    obtain ⟨hbefore, hlast⟩ := forall_mem_append.mp hnow
    have hkept := ih (pairwise_append.mp hcalls).1 hbefore
    have hc : c.now ≤ now := hlast c (mem_singleton_self c)
    rw [stored_concat, acceptedTimes_concat, recent_append, ← hkept]
    by_cases hname : c.name = name
    · subst hname
      rw [if_pos rfl, keptAfter, Nat.cast_ofNat]
      by_cases hnone : answerTo calls c = none
      · have hroom := Nat.not_le_of_lt (answerTo_eq_none_iff.mp hnone)
        rw [if_neg hroom, if_pos ⟨hnone, rfl⟩, recent_append, recent_recent hc]
      · have hfull := Nat.le_of_not_lt (mt answerTo_eq_none_iff.mpr hnone)
        rw [if_pos hfull, if_neg fun h => hnone h.1]
        exact (append_nil _).symm
    · rw [if_neg hname, if_neg fun h => hname h.2]
      exact (append_nil _).symm

/-! ## The window -/

theorem atMost_acceptedTimes (hcalls : CallsInOrder calls) (name : Str) :
    AtMost keyChangesPerMinute 60 (acceptedTimes name calls) := by
  induction calls using List.reverseRecOn with
  | nil => exact atMost_nil _ _
  | append_singleton calls c ih =>
    have hbefore := (pairwise_append.mp hcalls).1
    rw [acceptedTimes_concat]
    split
    · rename_i haccepted
      obtain ⟨hnone, rfl⟩ := haccepted
      rw [answerTo_eq_none_iff, recent_stored hbefore (time_le_of_concat hcalls)] at hnone
      exact (ih hbefore).concat hnone
    · rw [append_nil]
      exact ih hbefore

theorem full_of_refused (hcalls : CallsInOrder (calls ++ [c])) (h : answerTo calls c ≠ none) :
    (within 60 c.now (acceptedTimes c.name calls)).length = keyChangesPerMinute := by
  have hbefore := (pairwise_append.mp hcalls).1
  have htimes := time_le_of_concat hcalls
  refine Nat.le_antisymm (atMost_acceptedTimes hbefore c.name c.now) ?_
  rw [← recent_eq_within, ← recent_stored hbefore htimes, ← Nat.not_lt, ← answerTo_eq_none_iff]
  · exact h
  · intro t ht
    obtain ⟨d, hd, rfl⟩ := mem_calls_of_acceptedTimes ht
    exact htimes d hd

/-- The first of the recent times leaves the window within the wait that is advertised. -/
theorem recent_after_wait {now later : K} {times : List K} {first : K} {rest : List K}
    (hrecent : recent 60 now times = first :: rest) (hle : now ≤ later)
    (hwait : now + (int (60 - (now - first)) + 1 : ℤ) ≤ later) :
    (recent 60 later times).length ≤ rest.length := by
  have hfirst : now - first < 60 := by
    have hmem : first ∈ recent 60 now times := by
      rw [hrecent]
      exact mem_cons_self
    exact of_decide_eq_true (mem_filter.mp hmem).2
  have hover : ¬ later - first < 60 := by
    have hlong := lt_int_add_one (sub_nonneg.mpr hfirst.le)
    rw [not_lt]
    linarith
  rw [← recent_recent hle, hrecent, recent, filter_cons_of_neg (by simpa using hover)]
  exact length_filter_le ..

/-- A refused caller that has waited is accepted, unless a call of its name was accepted in
the meantime. -/
theorem accepted_after_wait {between : List (KeyCall K)}
    (hcalls : CallsInOrder (before ++ c :: (between ++ [d])))
    (hrefused : answerTo before c = some e) (hname : d.name = c.name)
    (hbetween : acceptedTimes c.name (before ++ c :: between) = acceptedTimes c.name before)
    (hwait : c.now + (e.retryAfter : K) ≤ d.now) : answerTo (before ++ c :: between) d = none := by
  obtain ⟨first, rest, hrecent, hretry⟩ := retryAfter_eq hrefused
  obtain ⟨hbefore, htail, hcross⟩ := pairwise_append.mp hcalls
  have hlater : c.now ≤ d.now := (pairwise_cons.mp htail).1 d (by simp)
  have hwhole : CallsInOrder ((before ++ c :: between) ++ [d]) := by
    rw [append_assoc]
    exact hcalls
  rw [answerTo_eq_none_iff, hname,
    recent_stored (pairwise_append.mp hwhole).1 (time_le_of_concat hwhole), hbetween,
    ← recent_stored hbefore fun b hb => hcross b hb d (by simp)]
  rw [hretry] at hwait
  have hle := recent_after_wait hrecent hlater hwait
  have hcap : (first :: rest).length ≤ keyChangesPerMinute := by
    rw [← hrecent]
    exact (length_filter_le ..).trans (length_stored_le c.name before)
  rw [length_cons] at hcap
  omega

/-- The limiter is a sliding window for each name. -/
structure Slides (calls : List (KeyCall K)) : Prop where
  at_most : ∀ name t, (within 60 t (acceptedTimes name calls)).length ≤ keyChangesPerMinute
  refused : ∀ before c after, calls = before ++ c :: after → answerTo before c ≠ none →
    (within 60 c.now (acceptedTimes c.name before)).length = keyChangesPerMinute
  others : ∀ before c after, calls = before ++ c :: after →
    answerTo before c = answerTo (before.filter fun b => decide (b.name = c.name)) c
  waited : ∀ before c between d after e, calls = before ++ c :: (between ++ d :: after) →
    answerTo before c = some e → d.name = c.name →
    acceptedTimes c.name (before ++ c :: between) = acceptedTimes c.name before →
    c.now + (e.retryAfter : K) ≤ d.now → answerTo (before ++ c :: between) d = none

/-- On every sequence of calls in order. -/
theorem key_changes_slide (calls : List (KeyCall K)) (hcalls : CallsInOrder calls) :
    Slides calls where
  at_most := fun name => atMost_acceptedTimes hcalls name
  refused := by
    rintro before c after rfl hrefused
    refine full_of_refused ?_ hrefused
    rw [← singleton_append, ← append_assoc] at hcalls
    exact (pairwise_append.mp hcalls).1
  others := by
    intro before c after _
    exact answerTo_congr (stored_filter c.name before).symm
  waited := by
    rintro before c between d after e rfl hrefused hname hbetween hwait
    refine accepted_after_wait ?_ hrefused hname hbetween hwait
    refine hcalls.sublist (List.Sublist.append_left (List.Sublist.cons_cons c ?_) before)
    exact List.Sublist.append_left (List.Sublist.cons_cons d (nil_sublist after)) between

def tenCalls : List (KeyCall ℚ) := (List.range 10).map fun i => ⟨"ops".toList, i⟩

/-- The eleventh call is refused with a wait of 51 seconds, and accepted after it, whatever
another name does. -/
theorem eleventh_call_waits :
    answerTo tenCalls ⟨"ops".toList, 19 / 2⟩ =
      some ⟨"too many key changes; wait a minute".toList, 51⟩ ∧
    answerTo (tenCalls ++ ⟨"ops".toList, 19 / 2⟩ :: [⟨"eve".toList, 10⟩])
      ⟨"ops".toList, 121 / 2⟩ = none := by
  have hrefused : answerTo tenCalls ⟨"ops".toList, 19 / 2⟩ =
      some ⟨"too many key changes; wait a minute".toList, 51⟩ := by decide +kernel
  have horder : CallsInOrder (tenCalls ++ ⟨"ops".toList, 19 / 2⟩ ::
      ([⟨"eve".toList, 10⟩] ++ [⟨"ops".toList, 121 / 2⟩])) := by
    unfold CallsInOrder
    decide +kernel
  exact ⟨hrefused, (key_changes_slide _ horder).waited _ _ _ _ [] _ rfl hrefused rfl
    (by decide +kernel) (by decide +kernel)⟩

end RateLimit

end EmailExtractor
