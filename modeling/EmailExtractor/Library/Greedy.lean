import Mathlib.Data.List.Basic
import Mathlib.Data.List.Count
import Mathlib.Data.List.Pairwise
import Mathlib.Order.Lattice

/-!
# Picking greedily under two caps

The elements of a list are taken in their order, at most `limit` of them and at most `cap`
of each class. Whatever is left out is left out because one of the caps was reached by
elements before it. In a list without ties the picked elements are the first `limit` of
those that are among the first `cap` of their class.
-/

namespace Greedy

open List

variable {α κ : Type*} [DecidableEq κ] {cls : α → κ} {limit cap : ℕ}

def pick (cls : α → κ) (limit cap : ℕ) (chosen : List α) : List α → List α
  | [] => chosen
  | a :: as =>
    if limit ≤ chosen.length then chosen
    else if cap ≤ chosen.countP (fun b => cls b = cls a) then pick cls limit cap chosen as
    else pick cls limit cap (chosen ++ [a]) as

theorem pick_map {β : Type*} (f : α → β) {cls' : β → κ} (hcls : ∀ a, cls' (f a) = cls a)
    (chosen as : List α) :
    (pick cls limit cap chosen as).map f =
      pick cls' limit cap (chosen.map f) (as.map f) := by
  induction as generalizing chosen with
  | nil => rfl
  | cons a as ih =>
    have hcount : (chosen.map f).countP (fun b => cls' b = cls' (f a)) =
        chosen.countP fun b => cls b = cls a := by
      rw [countP_map]
      refine countP_congr fun b _ => ?_
      simp [hcls]
    rw [map_cons, pick, pick, length_map, hcount]
    split
    · rfl
    · split
      · exact ih chosen
      · rw [ih (chosen ++ [a]), map_append]
        rfl

theorem exists_sublist (cls : α → κ) (limit cap : ℕ) (chosen as : List α) :
    ∃ t, pick cls limit cap chosen as = chosen ++ t ∧ t.Sublist as := by
  induction as generalizing chosen with
  | nil => exact ⟨[], (append_nil chosen).symm, List.Sublist.refl _⟩
  | cons a as ih =>
    rw [pick]
    split
    · exact ⟨[], (append_nil chosen).symm, nil_sublist _⟩
    · split
      · obtain ⟨t, ht, hsub⟩ := ih chosen
        exact ⟨t, ht, hsub.cons a⟩
      · obtain ⟨t, ht, hsub⟩ := ih (chosen ++ [a])
        exact ⟨a :: t, by rw [ht, append_assoc]; rfl, hsub.cons_cons a⟩

theorem length_pick_le (chosen as : List α) (h : chosen.length ≤ limit) :
    (pick cls limit cap chosen as).length ≤ limit := by
  induction as generalizing chosen with
  | nil => exact h
  | cons a as ih =>
    rw [pick]
    split
    · exact h
    · rename_i hroom
      split
      · exact ih chosen h
      · refine ih (chosen ++ [a]) ?_
        rw [length_append]
        exact Nat.lt_of_not_le hroom

theorem countP_pick_le (chosen as : List α)
    (h : ∀ k, chosen.countP (fun b => cls b = k) ≤ cap) (k : κ) :
    (pick cls limit cap chosen as).countP (fun b => cls b = k) ≤ cap := by
  induction as generalizing chosen with
  | nil => exact h k
  | cons a as ih =>
    rw [pick]
    split
    · exact h k
    · split
      · exact ih chosen h
      · rename_i hroom
        refine ih (chosen ++ [a]) fun k => ?_
        rw [countP_append, countP_singleton]
        by_cases hk : cls a = k
        · subst hk
          rw [if_pos (decide_eq_true rfl)]
          exact Nat.lt_of_not_le hroom
        · rw [if_neg (by simpa using hk)]
          exact h k

/-- An element is left out only if one of the caps was reached by elements before it. -/
theorem full_of_notMem_pick {r : α → α → Bool} {chosen as : List α}
    (hsorted : (chosen ++ as).Pairwise fun a b => r a b = true) {a : α} (ha : a ∈ as)
    (hout : a ∉ pick cls limit cap chosen as) :
    limit ≤ (pick cls limit cap chosen as).countP (fun b => r b a) ∨
      cap ≤ (pick cls limit cap chosen as).countP (fun b => r b a && cls b = cls a) := by
  induction as generalizing chosen with
  | nil => cases ha
  | cons first as ih =>
    have hbefore : ∀ b ∈ chosen, r b a = true := fun b hb =>
      (pairwise_append.mp hsorted).2.2 b hb a ha
    rw [pick] at hout ⊢
    split at hout
    · rename_i hfull
      rw [if_pos hfull]
      left
      rw [countP_eq_length.mpr hbefore]
      exact hfull
    · rename_i hroom
      rw [if_neg hroom]
      split at hout
      · rename_i hcap
        rw [if_pos hcap]
        rcases mem_cons.mp ha with rfl | ha
        · right
          obtain ⟨t, ht, -⟩ := exists_sublist cls limit cap chosen as
          rw [ht, countP_append]
          refine Nat.le_trans hcap (Nat.le_trans (Nat.le_of_eq ?_) (Nat.le_add_right _ _))
          refine countP_congr fun b hb => ?_
          rw [hbefore b hb, Bool.true_and]
        · refine ih ?_ ha hout
          exact hsorted.sublist ((sublist_cons_self first as).append_left chosen)
      · rename_i hcap
        rw [if_neg hcap]
        rcases mem_cons.mp ha with rfl | ha
        · obtain ⟨t, ht, -⟩ := exists_sublist cls limit cap (chosen ++ [a]) as
          refine absurd ?_ hout
          rw [ht]
          simp
        · refine ih ?_ ha hout
          rw [append_assoc]
          exact hsorted

/-! ## Lists without ties -/

section Keys

variable {β : Type*} [LinearOrder β] {key : α → β} {as : List α} {a : α}

/-- The elements that are among the first `cap` of their class. -/
def leading (key : α → β) (cls : α → κ) (cap : ℕ) (as : List α) : List α :=
  as.filter fun a => as.countP (fun b => key b < key a ∧ cls b = cls a) < cap

theorem leading_perm {as' : List α} (h : as.Perm as') :
    (leading key cls cap as).Perm (leading key cls cap as') := by
  have hcount : (fun a => decide (as.countP (fun b => key b < key a ∧ cls b = cls a) < cap)) =
      fun a => decide (as'.countP (fun b => key b < key a ∧ cls b = cls a) < cap) := by
    funext a
    rw [h.countP_eq]
  unfold leading
  rw [hcount]
  exact h.filter _

theorem countP_before {before after : List α}
    (h : (before ++ a :: after).Pairwise fun a b => key a < key b) :
    (before ++ a :: after).countP (fun b => key b < key a ∧ cls b = cls a) =
      before.countP fun b => cls b = cls a := by
  obtain ⟨-, hafter, hbefore⟩ := pairwise_append.mp h
  have hrest : (a :: after).countP (fun b => key b < key a ∧ cls b = cls a) = 0 := by
    refine countP_eq_zero.mpr fun b hb => ?_
    have hle : ¬ key b < key a := by
      rcases mem_cons.mp hb with rfl | hb
      · exact lt_irrefl _
      · exact lt_asymm ((pairwise_cons.mp hafter).1 b hb)
    simp [hle]
  rw [countP_append, hrest, Nat.add_zero]
  refine countP_congr fun b hb => ?_
  simp [hbefore b hb a (mem_cons_self ..)]

/-- The induction is on the rest of the list: of every class the first `cap` elements read
so far are chosen. -/
theorem pick_eq_take {all before chosen : List α} (hall : all = before ++ as)
    (hsorted : all.Pairwise fun a b => key a < key b)
    (hchosen : chosen = before.filter fun a =>
      all.countP (fun b => key b < key a ∧ cls b = cls a) < cap)
    (hcount : ∀ k, chosen.countP (fun b => cls b = k) =
      min cap (before.countP fun b => cls b = k))
    (hlimit : chosen.length ≤ limit) :
    pick cls limit cap chosen as = (leading key cls cap all).take limit := by
  induction as generalizing before chosen with
  | nil =>
    rw [append_nil] at hall
    subst hall
    rw [pick, leading, ← hchosen, take_of_length_le hlimit]
  | cons a as ih =>
    have hall' : all = (before ++ [a]) ++ as := by rw [hall, append_assoc]; rfl
    have hself : all.countP (fun b => key b < key a ∧ cls b = cls a) =
        before.countP fun b => cls b = cls a := by
      rw [hall] at hsorted ⊢
      exact countP_before hsorted
    have hmore : ∀ k, (before ++ [a]).countP (fun b => cls b = k) =
        before.countP (fun b => cls b = k) + if cls a = k then 1 else 0 := by
      intro k
      rw [countP_append, countP_singleton]
      simp
    rw [pick]
    split
    · rename_i hfull
      have hsplit : leading key cls cap all = chosen ++ (a :: as).filter fun a =>
          all.countP (fun b => key b < key a ∧ cls b = cls a) < cap := by
        rw [leading, hchosen, ← filter_append, ← hall]
      rw [hsplit, take_left' (Nat.le_antisymm hlimit hfull)]
    · rename_i hroom
      have hcls := hcount (cls a)
      split
      · rename_i hcap
        refine ih hall' ?_ (fun k => ?_) hlimit
        · rw [filter_append, ← hchosen, filter_cons_of_neg, filter_nil,
            append_nil]
          simp only [decide_eq_true_eq, hself]
          omega
        · rw [hcount k, hmore k]
          split
          · rename_i hk
            subst hk
            omega
          · rfl
      · rename_i hcap
        refine ih hall' ?_ (fun k => ?_) ?_
        · rw [filter_append, ← hchosen, filter_cons_of_pos, filter_nil]
          simp only [decide_eq_true_eq, hself]
          omega
        · rw [countP_append, countP_singleton, hcount k, hmore k]
          by_cases hk : cls a = k
          · subst hk
            simp only [decide_true, if_true]
            omega
          · simp only [hk, decide_false, Bool.false_eq_true, if_false, Nat.add_zero]
        · rw [length_append, length_singleton]
          omega

theorem mem_take_iff {n : ℕ} (h : as.Pairwise fun a b => key a < key b) :
    a ∈ as.take n ↔ a ∈ as ∧ as.countP (fun b => key b < key a) < n := by
  induction as generalizing n with
  | nil => simp
  | cons first as ih =>
    obtain ⟨hfirst, htail⟩ := pairwise_cons.mp h
    cases n with
    | zero => simp
    | succ n =>
      rw [take_succ_cons, mem_cons, mem_cons, ih htail, countP_cons]
      constructor
      · rintro (rfl | ⟨ha, hcount⟩)
        · refine ⟨.inl rfl, ?_⟩
          have hnone : as.countP (fun b => key b < key a) = 0 :=
            countP_eq_zero.mpr fun b hb => by simpa using le_of_lt (hfirst b hb)
          rw [hnone, if_neg (by simp)]
          exact Nat.succ_pos n
        · refine ⟨.inr ha, ?_⟩
          simp only [hfirst a ha, decide_true, if_true]
          omega
      · rintro ⟨rfl | ha, hcount⟩
        · exact .inl rfl
        · refine .inr ⟨ha, ?_⟩
          simp only [hfirst a ha, decide_true, if_true] at hcount
          omega

theorem mem_pick_iff (h : as.Pairwise fun a b => key a < key b) :
    a ∈ pick cls limit cap [] as ↔ a ∈ leading key cls cap as ∧
      (leading key cls cap as).countP (fun b => key b < key a) < limit := by
  have htake : pick cls limit cap [] as = (leading key cls cap as).take limit :=
    pick_eq_take (nil_append as).symm h rfl (fun _ => by simp) (Nat.zero_le _)
  rw [htake]
  exact mem_take_iff (h.sublist filter_sublist)

end Keys

end Greedy
