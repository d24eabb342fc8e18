import EmailExtractor.Library.Regex
import Mathlib.Data.List.Forall2

/-!
# What a pattern reads

A pattern reads a text that stands between the character before it and the text after
it. The relation says nothing of the order in which the engine tries things, and the
engine finds a way through exactly when there is one.
-/

namespace Regex

open List

/-! ## Texts in their place -/

/-- The character before the position after `w`. -/
def lastOr (prev : Option Char) (w : Str) : Option Char := w.getLast?.or prev

@[simp] theorem lastOr_nil (prev : Option Char) : lastOr prev [] = prev := rfl

@[simp] theorem lastOr_append (prev : Option Char) (u v : Str) :
    lastOr prev (u ++ v) = lastOr (lastOr prev u) v := by
  rw [lastOr, lastOr, lastOr, List.getLast?_append, Option.or_assoc]

@[simp] theorem lastOr_singleton (prev : Option Char) (c : Char) : lastOr prev [c] = some c := rfl

/-- The rounds of a repetition read texts that are not empty, one after the other. -/
def Rounds (R : Option Char → Str → Str → Prop) (after : Str) : Option Char → List Str → Prop
  | _, [] => True
  | prev, u :: us =>
    u ≠ [] ∧ R prev u (us.flatten ++ after) ∧ Rounds R after (lastOr prev u) us

/-- The pattern reads `w`, which stands after the character `prev` and before `after`. -/
def Reads : Regex → Option Char → Str → Str → Prop
  | eps, _, w, _ => w = []
  | char p, _, w, _ => ∃ c, p c = true ∧ w = [c]
  | look p, prev, w, after => p prev after = true ∧ w = []
  | seq r r', prev, w, after =>
    ∃ u v, w = u ++ v ∧ Reads r prev u (v ++ after) ∧ Reads r' (lastOr prev u) v after
  | alt r r', prev, w, after => Reads r prev w after ∨ Reads r' prev w after
  | star _ r, prev, w, after => ∃ us, w = us.flatten ∧ Rounds (Reads r) after prev us
  | group r, prev, w, after => Reads r prev w after

def groupFree : Regex → Bool
  | eps => true
  | char _ => true
  | look _ => true
  | seq r r' => groupFree r && groupFree r'
  | alt r r' => groupFree r && groupFree r'
  | star _ r => groupFree r
  | group _ => false

/-! ## The engine is sound -/

/-- A way through `body` reads a text as `R` says, and keeps what was captured if `free`. -/
def Sound (body : State → (State → Option State) → Option State)
    (R : Option Char → Str → Str → Prop) (free : Bool) : Prop :=
  ∀ s k t, body s k = some t → ∃ w rest cap, s.rest = w ++ rest ∧ R s.prev w rest ∧
    (free = true → cap = s.captured) ∧ k ⟨lastOr s.prev w, rest, cap⟩ = some t

theorem loop_sound {body : State → (State → Option State) → Option State}
    {R : Option Char → Str → Str → Prop} {free : Bool} (hbody : Sound body R free)
    {greedy : Bool} {k : State → Option State} {t : State} (n : ℕ) (s : State)
    (h : loop body greedy k n s = some t) :
    ∃ us rest cap, s.rest = us.flatten ++ rest ∧ Rounds R rest s.prev us ∧
      (free = true → cap = s.captured) ∧ k ⟨lastOr s.prev us.flatten, rest, cap⟩ = some t := by
  induction n generalizing s with
  | zero => exact ⟨[], s.rest, s.captured, rfl, trivial, fun _ => rfl, h⟩
  | succ n ih =>
    have hcases : (body s fun s' =>
        if s'.rest.length < s.rest.length then loop body greedy k n s' else none) = some t ∨
        k s = some t := by
      unfold loop at h
      cases greedy with
      | true =>
        rw [if_pos rfl, Option.orElse_eq_or, Option.or_eq_some_iff] at h
        exact h.imp id And.right
      | false =>
        rw [if_neg Bool.false_ne_true, Option.orElse_eq_or, Option.or_eq_some_iff] at h
        exact (h.imp id And.right).symm
    rcases hcases with hround | hk
    · obtain ⟨w, rest, cap, hrest, hR, hcap, hk⟩ := hbody _ _ _ hround
      split at hk
      · rename_i hshorter
        obtain ⟨us, rest', cap', hrest', hrounds, hcap', hk'⟩ := ih _ hk
        dsimp only at hrest' hrounds hcap' hshorter
        have hne : w ≠ [] := by
          rintro rfl
          rw [hrest] at hshorter
          exact absurd hshorter (Nat.lt_irrefl _)
        refine ⟨w :: us, rest', cap', ?_, ⟨hne, ?_, hrounds⟩, fun hfree => ?_, ?_⟩
        · rw [hrest, hrest', flatten_cons, append_assoc]
        · rw [hrest'] at hR
          exact hR
        · rw [hcap' hfree, hcap hfree]
        · rw [flatten_cons, lastOr_append]
          exact hk'
      · cases hk
    · exact ⟨[], s.rest, s.captured, rfl, trivial, fun _ => rfl, hk⟩

theorem run_sound (r : Regex) : Sound (run r) (Reads r) r.groupFree := by
  induction r with
  | eps => exact fun s k t h => ⟨[], s.rest, s.captured, rfl, rfl, fun _ => rfl, h⟩
  | char p =>
    intro s k t h
    unfold run at h
    split at h
    · cases h
    · rename_i c rest hrest
      split at h
      · rename_i hp
        exact ⟨[c], rest, s.captured, hrest, ⟨c, hp, rfl⟩, fun _ => rfl, h⟩
      · cases h
  | look p =>
    intro s k t h
    unfold run at h
    split at h
    · rename_i hp
      exact ⟨[], s.rest, s.captured, rfl, ⟨hp, rfl⟩, fun _ => rfl, h⟩
    · cases h
  | seq r r' ih ih' =>
    intro s k t h
    obtain ⟨u, rest, cap, hrest, hu, hcap, h'⟩ := ih s _ t h
    obtain ⟨v, rest', cap', hrest', hv, hcap', hk⟩ := ih' _ k t h'
    dsimp only at hrest' hv hcap' hk
    refine ⟨u ++ v, rest', cap', ?_, ⟨u, v, rfl, ?_, hv⟩, fun hfree => ?_, ?_⟩
    · rw [hrest, hrest', append_assoc]
    · rw [← hrest']
      exact hu
    · obtain ⟨hr, hr'⟩ := Bool.and_eq_true_iff.mp hfree
      rw [hcap' hr', hcap hr]
    · rw [lastOr_append]
      exact hk
  | alt r r' ih ih' =>
    intro s k t h
    unfold run at h
    rw [Option.orElse_eq_or, Option.or_eq_some_iff] at h
    rcases h with h | ⟨-, h⟩
    · obtain ⟨w, rest, cap, hrest, hw, hcap, hk⟩ := ih s k t h
      exact ⟨w, rest, cap, hrest, .inl hw, fun hfree => hcap (Bool.and_eq_true_iff.mp hfree).1, hk⟩
    · obtain ⟨w, rest, cap, hrest, hw, hcap, hk⟩ := ih' s k t h
      exact ⟨w, rest, cap, hrest, .inr hw, fun hfree => hcap (Bool.and_eq_true_iff.mp hfree).2, hk⟩
  | star greedy r ih =>
    intro s k t h
    obtain ⟨us, rest, cap, hrest, hrounds, hcap, hk⟩ := loop_sound ih _ s h
    exact ⟨us.flatten, rest, cap, hrest, ⟨us, rfl, hrounds⟩, hcap, hk⟩
  | group r ih =>
    intro s k t h
    obtain ⟨w, rest, cap, hrest, hw, -, hk⟩ := ih s _ t h
    exact ⟨w, rest, _, hrest, hw, fun hfree => absurd hfree Bool.false_ne_true, hk⟩

/-! ## The engine is complete -/

/-- Where `R` says that a text can be read and the continuation leads through after it,
`body` leads through. -/
def Complete (body : State → (State → Option State) → Option State)
    (R : Option Char → Str → Str → Prop) : Prop :=
  ∀ s k w rest, s.rest = w ++ rest → R s.prev w rest →
    (∀ cap, (k ⟨lastOr s.prev w, rest, cap⟩).isSome = true) → (body s k).isSome = true

theorem loop_complete {body : State → (State → Option State) → Option State}
    {R : Option Char → Str → Str → Prop} (hbody : Complete body R) {greedy : Bool}
    {k : State → Option State} {us : List Str} {rest : Str} (n : ℕ) (hn : us.length ≤ n)
    (s : State) (hrest : s.rest = us.flatten ++ rest) (hrounds : Rounds R rest s.prev us)
    (hk : ∀ cap, (k ⟨lastOr s.prev us.flatten, rest, cap⟩).isSome = true) :
    (loop body greedy k n s).isSome = true := by
  induction us generalizing n s with
  | nil =>
    have hks : (k s).isSome = true := by
      have hsame : s = ⟨s.prev, rest, s.captured⟩ := by
        rw [show rest = s.rest from hrest.symm]
      rw [hsame]
      exact hk s.captured
    cases n with
    | zero => exact hks
    | succ n =>
      unfold loop
      cases greedy <;> simp [Option.orElse_eq_or, hks]
  | cons u us ih =>
    obtain ⟨hne, hu, hrounds⟩ := hrounds
    cases n with
    | zero => exact absurd hn (by simp)
    | succ n =>
      have hsplit : s.rest = u ++ (us.flatten ++ rest) := by
        rw [hrest, flatten_cons, append_assoc]
      have hround : (body s fun s' =>
          if s'.rest.length < s.rest.length then loop body greedy k n s' else none).isSome =
          true := by
        refine hbody s _ u (us.flatten ++ rest) hsplit hu fun cap => ?_
        have hshorter : (us.flatten ++ rest).length < s.rest.length := by
          have hpos := length_pos_iff.mpr hne
          simp only [hsplit, length_append]
          omega
        rw [if_pos hshorter]
        refine ih n (Nat.le_of_succ_le_succ hn) _ rfl hrounds fun cap => ?_
        have hk' := hk cap
        rw [flatten_cons, lastOr_append] at hk'
        exact hk'
      unfold loop
      cases greedy <;> simp [Option.orElse_eq_or, hround]

theorem length_le_of_rounds {R : Option Char → Str → Str → Prop} {after : Str}
    {prev : Option Char} {us : List Str} (h : Rounds R after prev us) :
    us.length ≤ us.flatten.length := by
  induction us generalizing prev with
  | nil => exact Nat.le_refl _
  | cons u us ih =>
    have hlen := ih h.2.2
    have hpos := length_pos_iff.mpr h.1
    rw [flatten_cons, length_append, length_cons]
    omega

theorem run_complete (r : Regex) : Complete (run r) (Reads r) := by
  induction r with
  | eps =>
    intro s k w rest hrest hw hk
    obtain rfl : w = [] := hw
    have hsame : s = ⟨s.prev, rest, s.captured⟩ := by
      rw [show rest = s.rest from hrest.symm]
    rw [run, hsame]
    exact hk s.captured
  | char p =>
    rintro s k w rest hrest ⟨c, hp, rfl⟩ hk
    unfold run
    rw [hrest]
    simp only [singleton_append, if_pos hp]
    exact hk s.captured
  | look p =>
    rintro s k w rest hrest ⟨hp, rfl⟩ hk
    obtain rfl : s.rest = rest := hrest
    unfold run
    rw [if_pos hp]
    exact hk s.captured
  | seq r r' ih ih' =>
    rintro s k w rest hrest ⟨u, v, rfl, hu, hv⟩ hk
    rw [append_assoc] at hrest
    refine ih s _ u (v ++ rest) hrest hu fun cap => ?_
    refine ih' _ k v rest rfl hv fun cap => ?_
    have hk' := hk cap
    rw [lastOr_append] at hk'
    exact hk'
  | alt r r' ih ih' =>
    intro s k w rest hrest hw hk
    unfold run
    rw [Option.orElse_eq_or, Option.isSome_or, Bool.or_eq_true]
    rcases hw with hw | hw
    · exact .inl (ih s k w rest hrest hw hk)
    · exact .inr (ih' s k w rest hrest hw hk)
  | star greedy r ih =>
    rintro s k w rest hrest ⟨us, rfl, hrounds⟩ hk
    refine loop_complete ih _ ?_ s hrest hrounds hk
    rw [hrest, length_append]
    exact Nat.le_trans (length_le_of_rounds hrounds) (Nat.le_add_right _ _)
  | group r ih =>
    intro s k w rest hrest hw hk
    exact ih s _ w rest hrest hw fun _ => hk _

/-! ## Matching and searching -/

variable {r : Regex} {prev : Option Char} {text : Str}

theorem matchAt_sound {t : State} (h : matchAt r prev text = some t) :
    ∃ w, text = w ++ t.rest ∧ Reads r prev w t.rest ∧ t.prev = lastOr prev w := by
  obtain ⟨w, rest, cap, hrest, hw, -, hk⟩ := run_sound r _ _ _ h
  obtain rfl := Option.some.inj hk
  exact ⟨w, hrest, hw, rfl⟩

theorem matchAt_isSome_iff :
    (matchAt r prev text).isSome = true ↔ ∃ w after, text = w ++ after ∧ Reads r prev w after := by
  constructor
  · intro h
    obtain ⟨t, ht⟩ := Option.isSome_iff_exists.mp h
    obtain ⟨w, hrest, hw, -⟩ := matchAt_sound ht
    exact ⟨w, t.rest, hrest, hw⟩
  · rintro ⟨w, after, hrest, hw⟩
    exact run_complete r ⟨prev, text, []⟩ some w after hrest hw fun _ => rfl

theorem fullMatches_iff : fullMatches r text = true ↔ Reads r none text [] := by
  unfold fullMatches
  constructor
  · intro h
    obtain ⟨t, ht⟩ := Option.isSome_iff_exists.mp h
    obtain ⟨w, rest, cap, hrest, hw, -, hk⟩ := run_sound r _ _ _ ht
    dsimp only at hrest hw hk
    split at hk
    · rename_i hnil
      rw [hnil] at hrest hw
      rwa [hrest, append_nil]
    · cases hk
  · intro h
    exact run_complete r ⟨none, text, []⟩ _ text [] (append_nil _).symm h fun _ => rfl

theorem matchAt_group {l r r' : Regex} (hfree : r'.groupFree = true) {t : State}
    (h : matchAt (seq l (seq (group r) r')) prev text = some t) :
    ∃ u v, text = u ++ (t.captured ++ (v ++ t.rest)) ∧
      Reads l prev u (t.captured ++ (v ++ t.rest)) ∧
      Reads r (lastOr prev u) t.captured (v ++ t.rest) ∧
      Reads r' (lastOr (lastOr prev u) t.captured) v t.rest := by
  obtain ⟨u, rest, cap, hrest, hu, -, h⟩ := run_sound l _ _ _ h
  obtain ⟨w, rest', cap', hrest', hw, -, h⟩ := run_sound r _ _ _ h
  obtain ⟨v, rest'', cap'', hrest'', hv, hcap, h⟩ := run_sound r' _ _ _ h
  dsimp only at hrest hrest' hrest'' hu hw hv hcap h
  have htake : rest.take (rest.length - rest'.length) = w := by
    rw [hrest', length_append, Nat.add_sub_cancel, take_left]
  obtain rfl := Option.some.inj h
  dsimp only
  rw [hcap hfree, htake]
  refine ⟨u, v, ?_⟩
  rw [← hrest'', ← hrest']
  exact ⟨hrest, hu, hw, hv⟩

theorem groupOf_sound {l r r' : Regex} (hfree : r'.groupFree = true) {g : Str}
    (h : groupOf (seq l (seq (group r) r')) text = some g) :
    ∃ u v rest, text = u ++ (g ++ (v ++ rest)) ∧ Reads l none u (g ++ (v ++ rest)) ∧
      Reads r (lastOr none u) g (v ++ rest) ∧ Reads r' (lastOr (lastOr none u) g) v rest := by
  obtain ⟨t, ht, rfl⟩ := Option.map_eq_some_iff.mp h
  obtain ⟨u, v, hmatch⟩ := matchAt_group hfree ht
  exact ⟨u, v, t.rest, hmatch⟩

theorem groupOf_eq_none_iff : groupOf r text = none ↔ ¬ ∃ w after, text = w ++ after ∧
    Reads r none w after := by
  rw [← matchAt_isSome_iff, groupOf, Option.map_eq_none_iff, Option.not_isSome_iff_eq_none]

theorem search_matchAt {m : Match} (h : search r prev text = some m) :
    ∃ text' t, text = m.before ++ text' ∧ matchAt r (lastOr prev m.before) text' = some t ∧
      t.captured = m.captured ∧ t.prev = m.last ∧ t.rest = m.after := by
  induction text generalizing prev m with
  | nil =>
    unfold search at h
    split at h
    · rename_i t ht
      cases h
      exact ⟨[], t, rfl, ht, rfl, rfl, rfl⟩
    · cases h
  | cons c text ih =>
    unfold search at h
    split at h
    · rename_i t ht
      cases h
      exact ⟨c :: text, t, rfl, ht, rfl, rfl, rfl⟩
    · obtain ⟨m', hm', rfl⟩ := Option.map_eq_some_iff.mp h
      obtain ⟨text', t, htext, ht, hm⟩ := ih hm'
      have hcons : lastOr prev (c :: m'.before) = lastOr (some c) m'.before :=
        lastOr_append prev [c] m'.before
      refine ⟨text', t, congrArg (c :: ·) htext, ?_, hm⟩
      rw [hcons]
      exact ht

theorem search_sound {m : Match} (h : search r prev text = some m) :
    ∃ w, text = m.before ++ (w ++ m.after) ∧ Reads r (lastOr prev m.before) w m.after ∧
      m.last = lastOr prev (m.before ++ w) := by
  obtain ⟨text', t, htext, ht, -, hlast, hafter⟩ := search_matchAt h
  obtain ⟨w, hrest, hw, hprev⟩ := matchAt_sound ht
  rw [hafter] at hrest hw
  refine ⟨w, by rw [htext, hrest], hw, ?_⟩
  rw [← hlast, hprev, lastOr_append]

theorem search_group {l r r' : Regex} (hfree : r'.groupFree = true) {m : Match}
    (h : search (seq l (seq (group r) r')) prev text = some m) :
    ∃ u v prev₁ prev₂ prev₃, text = m.before ++ (u ++ (m.captured ++ (v ++ m.after))) ∧
      Reads l prev₁ u (m.captured ++ (v ++ m.after)) ∧
      Reads r prev₂ m.captured (v ++ m.after) ∧ Reads r' prev₃ v m.after := by
  obtain ⟨text', t, htext, ht, hcaptured, -, hafter⟩ := search_matchAt h
  obtain ⟨u, v, hrest, hu, hg, hv⟩ := matchAt_group hfree ht
  rw [hcaptured, hafter] at hrest hu hg
  rw [hafter] at hv
  exact ⟨u, v, _, _, _, by rw [htext, hrest], hu, hg, hv⟩

theorem matchAt_of_mem_findAll {g : Str} (h : g ∈ findAll r text) :
    ∃ prev' text' t, text' <:+ text ∧ matchAt r prev' text' = some t ∧ t.captured = g := by
  obtain ⟨m, hm, rfl⟩ := mem_map.mp h
  have hiter : ∀ (n : ℕ) (prev : Option Char) (text : Str), m ∈ findIter r n prev text →
      ∃ prev' text' t, text' <:+ text ∧ matchAt r prev' text' = some t ∧
        t.captured = m.captured := by
    intro n
    induction n with
    | zero =>
      intro prev text hm
      cases hm
    | succ n ih =>
      intro prev text hm
      unfold findIter at hm
      split at hm
      · cases hm
      · rename_i m' hm'
        rcases mem_cons.mp hm with rfl | hm
        · obtain ⟨text', t, htext, ht, hcaptured, -⟩ := search_matchAt hm'
          exact ⟨_, text', t, htext ▸ suffix_append _ _, ht, hcaptured⟩
        · obtain ⟨w, htext, -⟩ := search_sound hm'
          obtain ⟨prev', text', t, hsuffix, ht⟩ := ih _ _ hm
          refine ⟨prev', text', t, hsuffix.trans ?_, ht⟩
          rw [htext, ← append_assoc]
          exact suffix_append _ _
  exact hiter _ _ _ hm

theorem matchAt_group_self {t : State} (h : matchAt (group r) prev text = some t) :
    text = t.captured ++ t.rest ∧ Reads r prev t.captured t.rest := by
  obtain ⟨w, rest, cap, hrest, hw, -, hk⟩ := run_sound r _ _ _ h
  dsimp only at hrest hw hk
  have htake : text.take (text.length - rest.length) = w := by
    rw [hrest, length_append, Nat.add_sub_cancel, take_left]
  obtain rfl := Option.some.inj hk
  dsimp only
  rw [htake]
  exact ⟨hrest, hw⟩

theorem reads_of_mem_findAll {g : Str} (h : g ∈ findAll (group r) text) :
    ∃ before prev after, text = before ++ (g ++ after) ∧ Reads r prev g after := by
  obtain ⟨prev, text', t, ⟨before, htext⟩, ht, rfl⟩ := matchAt_of_mem_findAll h
  obtain ⟨hsplit, hreads⟩ := matchAt_group_self ht
  exact ⟨before, prev, t.rest, by rw [← hsplit, htext], hreads⟩

theorem search_isSome_of_reads {before w after : Str} (htext : text = before ++ (w ++ after))
    (hw : Reads r (lastOr prev before) w after) : (search r prev text).isSome = true := by
  induction before generalizing prev text with
  | nil =>
    have hmatch : (matchAt r prev text).isSome = true :=
      matchAt_isSome_iff.mpr ⟨w, after, htext, hw⟩
    obtain ⟨t, ht⟩ := Option.isSome_iff_exists.mp hmatch
    unfold search
    rw [ht]
    rfl
  | cons c before ih =>
    obtain rfl : text = c :: (before ++ (w ++ after)) := htext
    unfold search
    split
    · rfl
    · have hcons : lastOr prev (c :: before) = lastOr (some c) before :=
        lastOr_append prev [c] before
      rw [hcons] at hw
      rw [Option.isSome_map]
      exact ih rfl hw

theorem found_iff : found r text = true ↔
    ∃ before w after, text = before ++ (w ++ after) ∧ Reads r (lastOr none before) w after := by
  unfold found
  constructor
  · intro h
    obtain ⟨m, hm⟩ := Option.isSome_iff_exists.mp h
    obtain ⟨w, htext, hw, -⟩ := search_sound hm
    exact ⟨m.before, w, m.after, htext, hw⟩
  · rintro ⟨before, w, after, htext, hw⟩
    exact search_isSome_of_reads htext hw

theorem search_eq_none (h : ∀ before w after, text = before ++ (w ++ after) →
    ¬ Reads r (lastOr prev before) w after) : search r prev text = none := by
  by_contra hsome
  obtain ⟨m, hm⟩ := Option.ne_none_iff_exists'.mp hsome
  obtain ⟨w, htext, hw, -⟩ := search_sound hm
  exact h m.before w m.after htext hw

theorem search_of_not_found (h : found r text = false) : search r none text = none :=
  Option.not_isSome_iff_eq_none.mp (Bool.eq_false_iff.mp h)

theorem not_found_seq (h : found r text = false) (r' : Regex) :
    found (seq r r') text = false := by
  rw [← Bool.not_eq_true, found_iff] at h ⊢
  rintro ⟨before, w, after, htext, u, v, rfl, hu, -⟩
  rw [append_assoc] at htext
  exact h ⟨before, u, v ++ after, htext, hu⟩

theorem findIter_of_search (h : search r prev text = none) (n : ℕ) :
    findIter r n prev text = [] := by
  cases n with
  | zero => rfl
  | succ n => rw [findIter, h]

theorem replaceIter_of_search (h : search r prev text = none) (f : Str → Str → Str) (n : ℕ) :
    replaceIter r f n prev text = text := by
  cases n with
  | zero => rfl
  | succ n => rw [replaceIter, h]

theorem parts_of_mem_findIter {m : Match} (n : ℕ) (h : m ∈ findIter r n prev text) :
    ∃ u w prev', text = u ++ (m.before ++ (w ++ m.after)) ∧ Reads r prev' w m.after := by
  induction n generalizing prev text with
  | zero => cases h
  | succ n ih =>
    unfold findIter at h
    split at h
    · cases h
    · rename_i m' hm'
      obtain ⟨w', htext, hw', -⟩ := search_sound hm'
      rcases mem_cons.mp h with rfl | hm
      · exact ⟨[], w', _, htext, hw'⟩
      · obtain ⟨u, w, prev', hafter, hw⟩ := ih hm
        refine ⟨m'.before ++ (w' ++ u), w, prev', ?_, hw⟩
        rw [htext, hafter]
        simp

/-- What a split leaves between the matches, and that a match takes something away. -/
theorem mem_split_cases (hempty : ∀ prev after, ¬ Reads r prev [] after) {piece : Str}
    (h : piece ∈ split r text) :
    piece = text ∧ found r text = false ∨ piece.Sublist text ∧ piece.length < text.length := by
  have hpart : ∀ m ∈ findIter r text.length none text,
      (m.before.Sublist text ∧ m.before.length < text.length) ∧
        m.after.Sublist text ∧ m.after.length < text.length := by
    intro m hm
    obtain ⟨u, w, prev', htext, hw⟩ := parts_of_mem_findIter _ hm
    have hne : 0 < w.length := by
      rw [length_pos_iff]
      rintro rfl
      exact hempty _ _ hw
    have hlength := congrArg List.length htext
    simp only [length_append] at hlength
    refine ⟨⟨?_, by omega⟩, ?_, by omega⟩
    · conv_rhs => rw [htext]
      exact (sublist_append_left _ _).trans (sublist_append_right _ _)
    · conv_rhs => rw [htext, ← append_assoc, ← append_assoc]
      exact sublist_append_right _ _
  rcases mem_append.mp h with hbefore | hafter
  · obtain ⟨m, hm, rfl⟩ := mem_map.mp hbefore
    exact .inr (hpart m hm).1
  · rw [mem_singleton] at hafter
    cases hlast : (findIter r text.length none text).getLast? with
    | some m =>
      rw [hlast] at hafter
      subst hafter
      exact .inr (hpart m (mem_of_getLast? hlast)).2
    | none =>
      rw [hlast] at hafter
      refine .inl ⟨hafter, ?_⟩
      rw [← Bool.not_eq_true, found_iff]
      rintro ⟨before, w, after, htext, hw⟩
      rw [List.getLast?_eq_none_iff] at hlast
      obtain ⟨m, hm⟩ := Option.isSome_iff_exists.mp (search_isSome_of_reads htext hw)
      have hpos : w ≠ [] := by
        rintro rfl
        exact hempty _ _ hw
      obtain ⟨n, hn⟩ : ∃ n, text.length = n + 1 := by
        refine Nat.exists_eq_succ_of_ne_zero fun hzero => hpos ?_
        rw [length_eq_zero_iff.mp hzero] at htext
        simp only [nil_eq, append_eq_nil_iff] at htext
        exact htext.2.1
      rw [hn, findIter, hm] at hlast
      cases hlast

theorem before_mem_split {m : Match} (hne : text ≠ []) (h : search r none text = some m) :
    m.before ∈ split r text := by
  obtain ⟨n, hn⟩ := Nat.exists_eq_succ_of_ne_zero fun hzero => hne (length_eq_zero_iff.mp hzero)
  rw [split, hn, Nat.succ_eq_add_one, findIter, h]
  exact mem_append_left _ mem_cons_self

theorem split_of_not_found (h : found r text = false) : split r text = [text] := by
  rw [split, findIter_of_search (search_of_not_found h)]
  rfl

theorem findAll_of_not_found (h : found r text = false) : findAll r text = [] := by
  rw [findAll, findIter_of_search (search_of_not_found h)]
  rfl

theorem subWith_of_not_found (h : found r text = false) (f : Str → Str → Str) :
    subWith r f text = text :=
  replaceIter_of_search (search_of_not_found h) f _

theorem whole_eq {m : Match} {w : Str} (h : text = m.before ++ (w ++ m.after)) :
    m.whole text = w := by
  have hlength : text.length - m.before.length - m.after.length = w.length := by
    rw [h, length_append, length_append]
    omega
  rw [Match.whole, hlength, h, drop_left, take_left]

theorem single_match {m : Match} {w : Str} (h : search r none text = some m)
    (htext : text = m.before ++ (w ++ m.after)) (hne : w ≠ [])
    (hrest : search r m.last m.after = none) (f : Str → Str → Str) :
    findAll r text = [m.captured] ∧
      subWith r f text = m.before ++ (f w m.captured ++ m.after) := by
  obtain ⟨n, hn⟩ : ∃ n, text.length = n + 1 := by
    refine Nat.exists_eq_succ_of_ne_zero fun hzero => ?_
    rw [length_eq_zero_iff.mp hzero] at htext
    exact hne (append_eq_nil_iff.mp (append_eq_nil_iff.mp htext.symm).2).1
  constructor
  · rw [findAll, hn, findIter, h]
    dsimp only
    rw [findIter_of_search hrest]
    rfl
  · rw [subWith, hn, replaceIter, h]
    dsimp only
    rw [whole_eq htext, replaceIter_of_search hrest]

theorem sub_of_not_found (h : found r text = false) (repl : Str) : sub r repl text = text := by
  rw [sub, split_of_not_found h]
  exact intercalate_singleton

/-- A pattern that reads only up to the end of the text, and no empty text, is replaced
at most once, at the end. -/
theorem sub_of_anchored (hempty : ∀ prev, ¬ Reads r prev [] [])
    (hend : ∀ before w after, text = before ++ (w ++ after) →
      Reads r (lastOr none before) w after → after = [])
    (repl : Str) : sub r repl text = text ∨ ∃ before w, text = before ++ w ∧
      Reads r (lastOr none before) w [] ∧ sub r repl text = before ++ repl := by
  cases hsearch : search r none text with
  | none => exact .inl (sub_of_not_found (by rw [found, hsearch]; rfl) repl)
  | some m =>
    obtain ⟨w, htext, hw, -⟩ := search_sound hsearch
    have hafter := hend m.before w m.after htext hw
    rw [hafter] at hw htext
    rw [append_nil] at htext
    have hnone : search r m.last [] = none := by
      refine search_eq_none fun before' w' after' htext' hw' => ?_
      have hnil : before' = [] ∧ w' = [] ∧ after' = [] := by simpa using htext'
      rw [hnil.2.1, hnil.2.2] at hw'
      exact hempty _ hw'
    have hne : text ≠ [] := by
      intro hnil
      rw [hnil] at htext
      have hparts : m.before = [] ∧ w = [] := by simpa using htext.symm
      rw [hparts.2] at hw
      exact hempty _ hw
    obtain ⟨c, rest, hcons⟩ := exists_cons_of_ne_nil hne
    have hiter : findIter r text.length none text = [m] := by
      rw [hcons, length_cons, ← hcons, findIter, hsearch]
      dsimp only
      rw [hafter, findIter_of_search hnone]
    refine .inr ⟨m.before, w, htext, hw, ?_⟩
    rw [sub, split, hiter]
    change Str.join repl [m.before, m.after] = _
    rw [hafter, Str.join, intercalate_cons_cons, intercalate_singleton,
      append_nil]

/-! ## Characters that are never read -/

def Avoids (c : Char) : Regex → Prop
  | eps => True
  | char p => p c = false
  | look _ => True
  | seq r r' => Avoids c r ∧ Avoids c r'
  | alt r r' => Avoids c r ∧ Avoids c r'
  | star _ r => Avoids c r
  | group r => Avoids c r

theorem notMem_of_reads {c : Char} (hc : Avoids c r) {w after : Str}
    (h : Reads r prev w after) : c ∉ w := by
  induction r generalizing prev w after with
  | eps =>
    obtain rfl : w = [] := h
    exact not_mem_nil
  | char p =>
    obtain ⟨d, hd, rfl⟩ := h
    rw [mem_singleton]
    rintro rfl
    exact Bool.false_ne_true (hc.symm.trans hd)
  | look p =>
    rw [h.2]
    exact not_mem_nil
  | seq r r' ih ih' =>
    obtain ⟨u, v, rfl, hu, hv⟩ := h
    rw [mem_append, not_or]
    exact ⟨ih hc.1 hu, ih' hc.2 hv⟩
  | alt r r' ih ih' =>
    rcases h with h | h
    · exact ih hc.1 h
    · exact ih' hc.2 h
  | star greedy r ih =>
    obtain ⟨us, rfl, hrounds⟩ := h
    induction us generalizing prev with
    | nil => exact not_mem_nil
    | cons u us ihs =>
      rw [flatten_cons, mem_append, not_or]
      exact ⟨ih hc hrounds.2.1, ihs hrounds.2.2⟩
  | group r ih => exact ih hc h

theorem avoids_all {c : Char} {rs : List Regex} (h : ∀ r ∈ rs, Avoids c r) :
    Avoids c (all rs) := by
  induction rs with
  | nil => trivial
  | cons r rs ih =>
    obtain ⟨hr, hrs⟩ := forall_mem_cons.mp h
    cases rs with
    | nil => exact hr
    | cons r' rs => exact ⟨hr, ih hrs⟩

theorem avoids_any {c : Char} {rs : List Regex} (h : ∀ r ∈ rs, Avoids c r) :
    Avoids c (any rs) := by
  induction rs with
  | nil => rfl
  | cons r rs ih =>
    obtain ⟨hr, hrs⟩ := forall_mem_cons.mp h
    cases rs with
    | nil => exact hr
    | cons r' rs => exact ⟨hr, ih hrs⟩

theorem avoids_upTo {c : Char} (h : Avoids c r) (n : ℕ) : Avoids c (upTo r n) := by
  induction n with
  | zero => trivial
  | succ n ih => exact ⟨⟨h, ih⟩, trivial⟩

theorem avoids_lit {c : Char} {eq : Char → Char → Bool} {s : Str}
    (h : ∀ a ∈ s, eq a c = false) : Avoids c (lit eq s) := by
  refine avoids_all fun r hr => ?_
  obtain ⟨a, ha, rfl⟩ := mem_map.mp hr
  exact h a ha

/-! ## What the built patterns read -/

section Built

variable {p : Char → Bool} {w after : Str}

theorem reads_star_char {greedy : Bool} :
    Reads (star greedy (char p)) prev w after ↔ ∀ c ∈ w, p c = true := by
  constructor
  · rintro ⟨us, rfl, hrounds⟩
    induction us generalizing prev with
    | nil => simp
    | cons u us ih =>
      obtain ⟨-, ⟨c, hc, rfl⟩, hrounds⟩ := hrounds
      intro d hd
      rcases mem_cons.mp hd with rfl | hd
      · exact hc
      · exact ih hrounds d hd
  · intro h
    refine ⟨w.map fun c => [c], by rw [← flatMap_def, flatMap_singleton'], ?_⟩
    induction w generalizing prev with
    | nil => trivial
    | cons c w ih =>
      refine ⟨cons_ne_nil _ _, ⟨c, h c mem_cons_self, rfl⟩, ih fun d hd => ?_⟩
      exact h d (mem_cons_of_mem _ hd)

theorem reads_plus_char :
    Reads (plus (char p)) prev w after ↔ w ≠ [] ∧ ∀ c ∈ w, p c = true := by
  unfold plus
  constructor
  · rintro ⟨u, v, rfl, ⟨c, hc, rfl⟩, hv⟩
    rw [reads_star_char] at hv
    exact ⟨cons_ne_nil _ _, forall_mem_cons.mpr ⟨hc, hv⟩⟩
  · rintro ⟨hne, h⟩
    obtain ⟨c, v, rfl⟩ := exists_cons_of_ne_nil hne
    obtain ⟨hc, hv⟩ := forall_mem_cons.mp h
    exact ⟨[c], v, rfl, ⟨c, hc, rfl⟩, reads_star_char.mpr hv⟩

section

variable {L : Str → Prop} (hr : ∀ prev u after, Reads r prev u after ↔ L u) (hempty : ¬ L [])

include hr hempty

theorem rounds_iff {us : List Str} : Rounds (Reads r) after prev us ↔ ∀ u ∈ us, L u := by
  induction us generalizing prev with
  | nil => exact iff_of_true trivial (by simp)
  | cons u us ih =>
    rw [Rounds, ih, hr, forall_mem_cons]
    refine and_iff_right_of_imp fun h hu => ?_
    rw [hu] at h
    exact hempty h.1

theorem reads_atLeast (n : ℕ) :
    Reads (atLeast r n) prev w after ↔
      ∃ us : List Str, n ≤ us.length ∧ w = us.flatten ∧ ∀ u ∈ us, L u := by
  induction n generalizing prev w with
  | zero =>
    constructor
    · rintro ⟨us, rfl, hus⟩
      exact ⟨us, Nat.zero_le _, rfl, (rounds_iff hr hempty).mp hus⟩
    · rintro ⟨us, -, rfl, hus⟩
      exact ⟨us, rfl, (rounds_iff hr hempty).mpr hus⟩
  | succ n ih =>
    constructor
    · rintro ⟨u, v, rfl, hu, hv⟩
      obtain ⟨us, hlength, rfl, hus⟩ := ih.mp hv
      refine ⟨u :: us, Nat.succ_le_succ hlength, rfl, ?_⟩
      exact forall_mem_cons.mpr ⟨(hr _ _ _).mp hu, hus⟩
    · rintro ⟨us, hlength, rfl, hus⟩
      cases us with
      | nil => exact absurd hlength (Nat.not_succ_le_zero n)
      | cons u us =>
        obtain ⟨hu, hus⟩ := forall_mem_cons.mp hus
        refine ⟨u, us.flatten, rfl, (hr _ _ _).mpr hu, ih.mpr ?_⟩
        exact ⟨us, Nat.le_of_succ_le_succ hlength, rfl, hus⟩

theorem reads_plus :
    Reads (plus r) prev w after ↔ ∃ us, us ≠ [] ∧ w = us.flatten ∧ ∀ u ∈ us, L u := by
  have hplus : Reads (plus r) prev w after ↔ Reads (atLeast r 1) prev w after := Iff.rfl
  rw [hplus, reads_atLeast hr hempty]
  simp only [Nat.succ_le_iff, length_pos_iff]

end

theorem reads_upTo_char (n : ℕ) :
    Reads (upTo (char p) n) prev w after ↔ w.length ≤ n ∧ ∀ c ∈ w, p c = true := by
  induction n generalizing prev w with
  | zero =>
    rw [Nat.le_zero, length_eq_zero_iff]
    constructor
    · rintro rfl
      exact ⟨rfl, by simp⟩
    · exact And.left
  | succ n ih =>
    constructor
    · rintro (⟨u, v, rfl, ⟨c, hc, rfl⟩, hv⟩ | rfl)
      · obtain ⟨hlen, hall⟩ := ih.mp hv
        exact ⟨Nat.succ_le_succ hlen, forall_mem_cons.mpr ⟨hc, hall⟩⟩
      · exact ⟨Nat.zero_le _, by simp⟩
    · rintro ⟨hlen, hall⟩
      cases w with
      | nil => exact .inr rfl
      | cons c v =>
        obtain ⟨hc, hv⟩ := forall_mem_cons.mp hall
        exact .inl ⟨[c], v, rfl, ⟨c, hc, rfl⟩, ih.mpr ⟨Nat.le_of_succ_le_succ hlen, hv⟩⟩

theorem reads_two_upTo (n : ℕ) : Reads (all [char p, char p, upTo (char p) n]) prev w after ↔
    2 ≤ w.length ∧ w.length ≤ n + 2 ∧ ∀ c ∈ w, p c = true := by
  constructor
  · rintro ⟨u, v, rfl, ⟨c, hc, rfl⟩, u', v', rfl, ⟨d, hd, rfl⟩, hv⟩
    obtain ⟨hlen, hall⟩ := (reads_upTo_char n).mp hv
    refine ⟨Nat.le_add_left 2 v'.length, Nat.add_le_add_right hlen 2, ?_⟩
    exact forall_mem_cons.mpr ⟨hc, forall_mem_cons.mpr ⟨hd, hall⟩⟩
  · rintro ⟨hmin, hmax, hall⟩
    match w, hmin, hmax, hall with
    | c :: d :: v, _, hmax, hall =>
      obtain ⟨hc, hall⟩ := forall_mem_cons.mp hall
      obtain ⟨hd, hall⟩ := forall_mem_cons.mp hall
      refine ⟨[c], d :: v, rfl, ⟨c, hc, rfl⟩, [d], v, rfl, ⟨d, hd, rfl⟩, ?_⟩
      exact (reads_upTo_char n).mpr
        ⟨Nat.le_of_succ_le_succ (Nat.le_of_succ_le_succ hmax), hall⟩

theorem reads_all_cons (rs : List Regex) :
    Reads (all (r :: rs)) prev w after ↔ Reads (seq r (all rs)) prev w after := by
  cases rs with
  | nil =>
    constructor
    · intro h
      exact ⟨w, [], (append_nil w).symm, h, rfl⟩
    · rintro ⟨u, v, rfl, hu, rfl⟩
      rwa [append_nil]
  | cons r' rs => exact Iff.rfl

theorem reads_any (rs : List Regex) :
    Reads (any rs) prev w after ↔ ∃ r ∈ rs, Reads r prev w after := by
  induction rs with
  | nil =>
    exact ⟨fun ⟨c, hc, _⟩ => absurd hc Bool.false_ne_true,
      fun ⟨r, hr, _⟩ => absurd hr not_mem_nil⟩
  | cons r rs ih =>
    cases rs with
    | nil => simp [any]
    | cons r' rs =>
      rw [exists_mem_cons_iff, ← ih]
      exact Iff.rfl

theorem reads_lit {eq : Char → Char → Bool} {s : Str} :
    Reads (lit eq s) prev w after ↔ List.Forall₂ (fun a c => eq a c = true) s w := by
  induction s generalizing prev w with
  | nil =>
    rw [List.forall₂_nil_left_iff]
    exact Iff.rfl
  | cons a s ih =>
    rw [lit, map_cons, reads_all_cons]
    constructor
    · rintro ⟨u, v, rfl, ⟨c, hc, rfl⟩, hv⟩
      exact .cons hc (ih.mp hv)
    · intro h
      cases h with
      | cons hc hs => exact ⟨_, _, rfl, ⟨_, hc, rfl⟩, ih.mpr hs⟩

end Built

theorem exists_of_forall₂ {α β : Type*} {R : α → β → Prop} {l : List α} {m : List β}
    (h : List.Forall₂ R l m) {a : α} (ha : a ∈ l) : ∃ b ∈ m, R a b := by
  induction h with
  | nil => cases ha
  | cons hr _ ih =>
    rcases mem_cons.mp ha with rfl | ha
    · exact ⟨_, mem_cons_self, hr⟩
    · obtain ⟨b, hb, hr⟩ := ih ha
      exact ⟨b, mem_cons_of_mem _ hb, hr⟩

end Regex
