import Mathlib.Data.List.Induction
import Mathlib.Data.List.Nodup

/-!
# Insertion-ordered dictionaries

A dictionary is the list of its items in insertion order. Setting a present key
replaces the value and keeps the position; setting an absent key appends.

A loop that puts each element under its key, the first one as a new value and the later
ones into the value that is there, leaves under a key what its elements give in turn.
-/

/-- A dictionary as the list of its items, in insertion order. -/
abbrev Dict (κ ν : Type*) := List (κ × ν)

namespace Dict

open List

variable {κ ν : Type*} [DecidableEq κ]

def get? (k : κ) : Dict κ ν → Option ν
  | [] => none
  | (k', v) :: d => if k' = k then some v else get? k d

def getD (d : Dict κ ν) (k : κ) (dflt : ν) : ν := (get? k d).getD dflt

def set (k : κ) (v : ν) : Dict κ ν → Dict κ ν
  | [] => [(k, v)]
  | (k', v') :: d => if k' = k then (k', v) :: d else (k', v') :: set k v d

@[simp] theorem get?_set_self (k : κ) (v : ν) (d : Dict κ ν) : get? k (set k v d) = some v := by
  induction d with
  | nil => simp [set, get?]
  | cons item d ih =>
    unfold set
    split
    · rename_i h
      simp [get?, h]
    · rename_i h
      simp [get?, h, ih]

theorem get?_set_of_ne {k k' : κ} (h : k' ≠ k) (v : ν) (d : Dict κ ν) :
    get? k' (set k v d) = get? k' d := by
  induction d with
  | nil => simp [set, get?, h.symm]
  | cons item d ih =>
    unfold set
    split
    · rename_i hk
      simp [get?, hk, h.symm]
    · simp only [get?, ih]

theorem getD_set (k k' : κ) (v dflt : ν) (d : Dict κ ν) :
    (set k v d).getD k' dflt = if k = k' then v else d.getD k' dflt := by
  unfold getD
  split
  · rename_i h
    rw [h, get?_set_self]
    rfl
  · rename_i h
    rw [get?_set_of_ne (Ne.symm h)]

theorem mem_of_get? {k : κ} {v : ν} {d : Dict κ ν} (h : get? k d = some v) : (k, v) ∈ d := by
  induction d with
  | nil => simp [get?] at h
  | cons item d ih =>
    obtain ⟨k', v'⟩ := item
    unfold get? at h
    split at h
    · rename_i hk
      rw [hk, Option.some.inj h]
      exact mem_cons_self ..
    · exact mem_cons_of_mem _ (ih h)

theorem mem_of_mem_set {k : κ} {v : ν} {d : Dict κ ν} {item : κ × ν} (h : item ∈ set k v d) :
    item = (k, v) ∨ item ∈ d := by
  induction d with
  | nil => exact .inl (mem_singleton.mp h)
  | cons item' d ih =>
    unfold set at h
    split at h
    · rename_i hk
      rcases mem_cons.mp h with rfl | h
      · exact .inl (by rw [hk])
      · exact .inr (mem_cons_of_mem _ h)
    · rcases mem_cons.mp h with rfl | h
      · exact .inr (mem_cons_self ..)
      · exact (ih h).imp_right (mem_cons_of_mem _)

theorem nodup_keys_set (k : κ) (v : ν) {d : Dict κ ν} (h : (d.map Prod.fst).Nodup) :
    ((set k v d).map Prod.fst).Nodup := by
  induction d with
  | nil => exact nodup_singleton k
  | cons item d ih =>
    rw [map_cons, nodup_cons] at h
    unfold set
    split
    · exact nodup_cons.mpr h
    · rename_i hk
      refine nodup_cons.mpr ⟨fun hmem => ?_, ih h.2⟩
      obtain ⟨item', hitem', hkey⟩ := mem_map.mp hmem
      rcases mem_of_mem_set hitem' with rfl | hold
      · exact hk hkey.symm
      · exact h.1 (mem_map.mpr ⟨item', hold, hkey⟩)

theorem get?_of_mem {k : κ} {v : ν} {d : Dict κ ν} (hd : (d.map Prod.fst).Nodup)
    (h : (k, v) ∈ d) : get? k d = some v := by
  induction d with
  | nil => cases h
  | cons item d ih =>
    rw [map_cons, nodup_cons] at hd
    rcases mem_cons.mp h with rfl | h
    · exact if_pos rfl
    · have hne : item.1 ≠ k := by
        rintro rfl
        exact hd.1 (mem_map.mpr ⟨_, h, rfl⟩)
      exact (if_neg hne).trans (ih hd.2 h)

/-! ## Updates -/

def update (d items : Dict κ ν) : Dict κ ν := items.foldl (fun d item => set item.1 item.2 d) d

theorem get?_append (k : κ) (d e : Dict κ ν) : get? k (d ++ e) = (get? k d).or (get? k e) := by
  induction d with
  | nil => rfl
  | cons item d ih =>
    simp only [cons_append, get?]
    split
    · rfl
    · exact ih

theorem get?_update (k : κ) (d : Dict κ ν) {items : Dict κ ν}
    (h : ∀ a ∈ items, ∀ b ∈ items, a.1 = b.1 → a.2 = b.2) :
    get? k (update d items) = (get? k items).or (get? k d) := by
  induction items using List.reverseRecOn with
  | nil => rfl
  | append_singleton items item ih =>
    have ih := ih fun a ha b hb => h a (mem_append_left _ ha) b (mem_append_left _ hb)
    rw [update, foldl_append, foldl_cons, foldl_nil, ← update, get?_append]
    by_cases hk : item.1 = k
    · subst hk
      rw [get?_set_self]
      cases hold : get? item.1 items with
      | none => simp [get?]
      | some v =>
        have hv := h _ (mem_append_left _ (mem_of_get? hold)) item
          (mem_append_right _ (mem_singleton_self item)) rfl
        rw [← hv]
        rfl
    · have hitem : get? k [item] = none := if_neg hk
      rw [get?_set_of_ne (Ne.symm hk), ih, hitem, Option.or_none]

theorem get?_map_pair (f : κ → ν) (ks : List κ) (k : κ) :
    get? k (ks.map fun k => (k, f k)) = if k ∈ ks then some (f k) else none := by
  induction ks with
  | nil => rfl
  | cons k' ks ih =>
    rw [map_cons, get?, ih]
    by_cases hk : k' = k
    · simp [hk]
    · simp [hk, Ne.symm hk]

theorem get?_map_key {g : κ → κ} (hg : Function.Injective g) (d : Dict κ ν) (k : κ) :
    get? (g k) (d.map fun item => (g item.1, item.2)) = get? k d := by
  induction d with
  | nil => rfl
  | cons item d ih => simp only [map_cons, get?, hg.eq_iff, ih]

/-! ## Collecting by key -/

section Collect

variable {α : Type*} (key : α → κ) (new : α → ν) (update : ν → α → ν)

def collectStep (d : Dict κ ν) (a : α) : Dict κ ν :=
  match get? (key a) d with
  | none => set (key a) (new a) d
  | some old => set (key a) (update old a) d

def collected : List α → Option ν
  | [] => none
  | a :: as => some (as.foldl update (new a))

def collect (as : List α) : Dict κ ν := as.foldl (collectStep key new update) []

theorem collected_append_singleton (as : List α) (a : α) :
    collected new update (as ++ [a]) =
      some ((collected new update as).elim (new a) fun old => update old a) := by
  cases as with
  | nil => rfl
  | cons b as => simp [collected]

theorem collect_append_singleton (as : List α) (a : α) :
    collect key new update (as ++ [a]) =
      collectStep key new update (collect key new update as) a := by
  simp [collect]

theorem get?_collect (as : List α) (k : κ) :
    get? k (collect key new update as) =
      collected new update (as.filter fun a => decide (key a = k)) := by
  induction as using List.reverseRecOn with
  | nil => rfl
  | append_singleton as a ih =>
    rw [collect_append_singleton, collectStep, filter_append]
    by_cases hk : key a = k
    · subst hk
      rw [filter_cons_of_pos (by simp), filter_nil, collected_append_singleton, ← ih]
      cases get? (key a) (collect key new update as) with
      | none | some old => exact get?_set_self ..
    · rw [filter_cons_of_neg (by simpa using hk), filter_nil, append_nil, ← ih]
      cases get? (key a) (collect key new update as) with
      | none | some old => exact get?_set_of_ne (Ne.symm hk) ..

theorem nodup_keys_collect (as : List α) :
    ((collect key new update as).map Prod.fst).Nodup := by
  induction as using List.reverseRecOn with
  | nil => exact nodup_nil
  | append_singleton as a ih =>
    rw [collect_append_singleton, collectStep]
    cases get? (key a) (collect key new update as) with
    | none | some old => exact nodup_keys_set _ _ ih

end Collect

end Dict
