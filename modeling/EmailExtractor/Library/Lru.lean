import EmailExtractor.Library.Dict

/-!
# A bounded cache in front of a function

The items stand in the order of their last use. A cache that holds values of the function
only cannot be told from the function, whatever it has dropped.
-/

namespace Lru

variable {κ ν : Type*}

/-- Look up `k`, and store `v` under it if it is not there; the item used first goes when
there are too many. -/
def get [DecidableEq κ] (limit : ℕ) (k : κ) (v : ν) (d : Dict κ ν) : ν × Dict κ ν :=
  match Dict.get? k d with
  | some w => (w, d.filter (·.1 ≠ k) ++ [(k, w)])
  | none => (v, if limit < d.length + 1 then (d ++ [(k, v)]).tail else d ++ [(k, v)])

def Caches (f : κ → ν) (d : Dict κ ν) : Prop := ∀ item ∈ d, item.2 = f item.1

variable {f : κ → ν} {d : Dict κ ν}

@[simp] theorem caches_nil : Caches f [] := by
  simp [Caches]

theorem Caches.append (h : Caches f d) (k : κ) : Caches f (d ++ [(k, f k)]) := by
  intro item hitem
  rcases List.mem_append.1 hitem with hold | hnew
  · exact h item hold
  · rw [List.mem_singleton.1 hnew]

theorem Caches.get [DecidableEq κ] (h : Caches f d) (limit : ℕ) (k : κ) :
    (Lru.get limit k (f k) d).1 = f k ∧ Caches f (Lru.get limit k (f k) d).2 := by
  unfold Lru.get
  cases hget : Dict.get? k d with
  | some w =>
    have hw : w = f k := h _ (Dict.mem_of_get? hget)
    subst hw
    refine ⟨rfl, Caches.append (fun item hitem => ?_) k⟩
    exact h item (List.mem_of_mem_filter hitem)
  | none =>
    refine ⟨rfl, ?_⟩
    dsimp only
    split
    · exact fun item hitem => h.append k item (List.mem_of_mem_tail hitem)
    · exact h.append k

end Lru
