import EmailExtractor.Library.Search
import Mathlib.Data.Nat.Find

/-!
# The block scanner

`iter_blocks` of `app/pipeline/htmlscan.py` walks a document once. It looks for the opening and
the closing tag in a lower-cased copy, and uses the positions that it finds there in the
document itself. So it finds the blocks of the document where the copy has every character at
the place that it has in the document, and it can miss them where the copy is longer.
-/

namespace EmailExtractor

namespace Html

open Str List

/-! ## The model -/

structure Block where
  start : ℕ
  bodyStart : ℕ
  bodyEnd : ℕ
  /-- The field `end`. -/
  stop : ℕ
  attrs : Str
  deriving DecidableEq

def nameEnds : Str := " \t\r\n/>".toList

def openNeedle (tag : Str) : Str := '<' :: tag

def closeNeedle (tag : Str) : Str := '<' :: '/' :: tag

inductive Round
  | returns
  | continues (pos : ℕ)
  | yieldsLast (b : Block)
  | yields (b : Block)

def closeEnd (html : Str) (pos : ℕ) : ℕ :=
  match find ['>'] html pos with
  | none => html.length
  | some closeGt => closeGt + 1

def round (html low tag : Str) (pos : ℕ) : Round :=
  match find (openNeedle tag) low pos with
  | none => .returns
  | some start =>
    let after := start + (openNeedle tag).length
    if html[after]?.any (fun c => !nameEnds.contains c) then .continues after
    else
      match find ['>'] html after with
      | none => .returns
      | some gt =>
        match find (closeNeedle tag) low (gt + 1) with
        | none =>
          .yieldsLast ⟨start, gt + 1, html.length, html.length, slice html after gt⟩
        | some close =>
          .yields ⟨start, gt + 1, close,
            closeEnd html (close + (closeNeedle tag).length), slice html after gt⟩

/-! ## What a scan yields -/

section

variable (html tag : Str) (sees : Str → ℕ → Prop)

/-- An opening tag is seen at the position `p` and followed by a `>`. -/
def Opening (p : ℕ) : Prop :=
  sees (openNeedle tag) p ∧ (∃ c ∈ nameEnds, html[p + (openNeedle tag).length]? = some c) ∧
    ∃ q, p + (openNeedle tag).length ≤ q ∧ html[q]? = some '>'

/-- The first closing tag that is seen from `i` on is at `e`, or there is none and `e` is the
end of the document. -/
def EndsAt (i e : ℕ) : Prop :=
  IsLeast {j | i ≤ j ∧ sees (closeNeedle tag) j} e ∨
    (∀ j, i ≤ j → ¬ sees (closeNeedle tag) j) ∧ e = html.length

/-- The block that begins with the first opening tag that is seen from `pos` on. -/
structure FirstBlock (pos : ℕ) (b : Block) : Prop where
  start : IsLeast {p | pos ≤ p ∧ Opening html tag sees p} b.start
  gt : ∃ gt, IsLeast {j | b.start + (openNeedle tag).length ≤ j ∧ html[j]? = some '>'} gt ∧
    b.bodyStart = gt + 1 ∧ b.attrs = slice html (b.start + (openNeedle tag).length) gt
  close : EndsAt html tag sees b.bodyStart b.bodyEnd
  stop : b.stop = closeEnd html (b.bodyEnd + (closeNeedle tag).length)

/-- The blocks that are seen from `pos` on, one behind the end of the other. -/
def Blocks : ℕ → List Block → Prop
  | pos, [] => ∀ p, pos ≤ p → ¬ Opening html tag sees p
  | pos, b :: bs => FirstBlock html tag sees pos b ∧ Blocks b.stop bs

end

section

variable {html low tag : Str} {sees : Str → ℕ → Prop} {pos : ℕ}

theorem closeEnd_le (html : Str) (pos : ℕ) : closeEnd html pos ≤ html.length := by
  unfold closeEnd
  split
  · exact le_rfl
  · rename_i gt hgt
    have hat : html[gt]? = some '>' := occursAt_singleton.mp (isLeast_of_find hgt).1.2
    exact (List.getElem?_eq_some_iff.mp hat).1

theorem le_closeEnd {pos' : ℕ} (hlt : pos' ≤ pos) (hle : pos' ≤ html.length) :
    pos' ≤ closeEnd html pos := by
  unfold closeEnd
  split
  · exact hle
  · rename_i gt hgt
    have hpos : pos ≤ gt := (isLeast_of_find hgt).1.1
    omega

theorem closeEnd_of_length_le (hle : html.length ≤ pos) : closeEnd html pos = html.length := by
  unfold closeEnd
  split
  · rfl
  · rename_i gt hgt
    have hat : html[gt]? = some '>' := occursAt_singleton.mp (isLeast_of_find hgt).1.2
    have hlt : gt < html.length := (List.getElem?_eq_some_iff.mp hat).1
    exact absurd (hle.trans (isLeast_of_find hgt).1.1) (Nat.not_le_of_lt hlt)

theorem FirstBlock.lt_stop {b : Block} (h : FirstBlock html tag sees pos b) : pos < b.stop := by
  obtain ⟨hstart, ⟨gt, hgt, hbody, -⟩, hclose, hstop⟩ := h
  have hpos : pos ≤ b.start := hstart.1.1
  have hafter : b.start + (openNeedle tag).length ≤ gt := hgt.1.1
  have hlast : gt < html.length := (List.getElem?_eq_some_iff.mp hgt.1.2).1
  have hend : gt + 1 ≤ b.bodyEnd := by
    rcases hclose with hleast | ⟨-, hend⟩
    · exact hbody ▸ hleast.1.1
    · omega
  have hle : gt + 1 ≤ b.stop := hstop ▸ le_closeEnd (by omega) hlast
  omega

theorem FirstBlock.lt_length {b : Block} (h : FirstBlock html tag (OccursAt · low) pos b) :
    pos < low.length := by
  have hle := h.start.1.2.1.le_length (List.cons_ne_nil _ _)
  have hpos : pos ≤ b.start := h.start.1.1
  simp only [openNeedle, List.length_cons] at hle
  omega

/-! ## One round -/

/-- Opening tags do not overlap, since no name has a `<` in it. -/
theorem openNeedle_apart (htag : '<' ∉ tag) {s : Str} {p q : ℕ}
    (hp : OccursAt (openNeedle tag) s p) (hq : OccursAt (openNeedle tag) s q) (hlt : p < q) :
    p + (openNeedle tag).length ≤ q := by
  by_contra hinside
  rw [occursAt_iff] at hp hq
  obtain ⟨k, rfl⟩ := Nat.exists_eq_add_of_lt hlt
  have hk : k < tag.length := by
    simp only [openNeedle, length_cons] at hinside
    omega
  have hname : s[p + (k + 1)]? = some tag[k] := hp (k + 1) tag[k] (by simp [openNeedle])
  have hstart : s[p + k + 1 + 0]? = some '<' := hq 0 '<' rfl
  have hsame : some '<' = some tag[k] := hstart.symm.trans hname
  exact htag (Option.some.inj hsame ▸ getElem_mem hk)

theorem isLeast_opening {start gt : ℕ}
    (hstart : IsLeast {j | pos ≤ j ∧ OccursAt (openNeedle tag) low j} start)
    (hname : ∀ c, html[start + (openNeedle tag).length]? = some c → c ∈ nameEnds)
    (hgt : IsLeast {j | start + (openNeedle tag).length ≤ j ∧ html[j]? = some '>'} gt) :
    IsLeast {p | pos ≤ p ∧ Opening html tag (OccursAt · low) p} start := by
  have hlast : gt < html.length := (List.getElem?_eq_some_iff.mp hgt.1.2).1
  have hafter : start + (openNeedle tag).length < html.length := hgt.1.1.trans_lt hlast
  refine ⟨⟨hstart.1.1, hstart.1.2, ?_, gt, hgt.1⟩, fun p hp => hstart.2 ⟨hp.1, hp.2.1⟩⟩
  exact ⟨_, hname _ (List.getElem?_eq_getElem hafter), List.getElem?_eq_getElem hafter⟩

/-- What the ways out of a round say of the opening tags that are seen in the copy. -/
def RoundSpec (html low tag : Str) (pos : ℕ) : Round → Prop
  | .returns => ∀ p, pos ≤ p → ¬ Opening html tag (OccursAt · low) p
  | .continues pos' => pos < pos' ∧ pos < low.length ∧
    ('<' ∉ tag → ∀ p, pos ≤ p → Opening html tag (OccursAt · low) p → pos' ≤ p)
  | .yieldsLast b => FirstBlock html tag (OccursAt · low) pos b ∧ b.stop = html.length
  | .yields b => FirstBlock html tag (OccursAt · low) pos b

theorem round_spec (html low tag : Str) (pos : ℕ) :
    RoundSpec html low tag pos (round html low tag pos) := by
  unfold round
  cases hopen : find (openNeedle tag) low pos with
  | none => exact fun p hp hopening => find_eq_none_iff.mp hopen p hp hopening.1
  | some start =>
    have hstart := isLeast_of_find hopen
    have hpos : pos ≤ start := hstart.1.1
    simp only
    split
    · -- the name goes on: the tag that was found is none, and no other begins inside it
      rename_i hlonger
      obtain ⟨c, hc, hname⟩ := Option.any_eq_true _ _ |>.mp hlonger
      have hle := hstart.1.2.le_length (List.cons_ne_nil _ _)
      simp only [openNeedle, List.length_cons] at hle
      refine ⟨by simp only [openNeedle, List.length_cons]; omega, by omega, ?_⟩
      rintro htag p hp ⟨hat, ⟨d, hd, hnext⟩, -⟩
      rcases (hstart.2 ⟨hp, hat⟩).eq_or_lt with rfl | hlt
      · rw [hc] at hnext
        exact absurd (Option.some.inj hnext ▸ hd) (by simpa using hname)
      · exact openNeedle_apart htag hstart.1.2 hat hlt
    · rename_i hshort
      have hname : ∀ c, html[start + (openNeedle tag).length]? = some c → c ∈ nameEnds := by
        intro c hc
        rw [hc] at hshort
        simpa using hshort
      cases hfind : find ['>'] html (start + (openNeedle tag).length) with
      | none =>
        rintro p hp ⟨hat, -, q, hq, hgt⟩
        have hfirst : start ≤ p := hstart.2 ⟨hp, hat⟩
        exact find_eq_none_iff.mp hfind q (by omega) (occursAt_singleton.mpr hgt)
      | some gt =>
        have hgt := isLeast_of_find hfind
        simp only [occursAt_singleton] at hgt
        simp only
        cases hend : find (closeNeedle tag) low (gt + 1) with
        | none =>
          refine ⟨⟨isLeast_opening hstart hname hgt, ⟨gt, hgt, rfl, rfl⟩,
            .inr ⟨find_eq_none_iff.mp hend, rfl⟩, ?_⟩, rfl⟩
          exact (closeEnd_of_length_le (Nat.le_add_right _ _)).symm
        | some close =>
          exact ⟨isLeast_opening hstart hname hgt, ⟨gt, hgt, rfl, rfl⟩,
            .inl (isLeast_of_find hend), rfl⟩

end

/-! ## The scan -/

def iterBlocksFrom (html low tag : Str) (pos : ℕ) : List Block :=
  match _h : round html low tag pos with
  | .returns => []
  | .continues pos' => iterBlocksFrom html low tag pos'
  | .yieldsLast b => [b]
  | .yields b => b :: iterBlocksFrom html low tag b.stop
termination_by low.length - pos
decreasing_by
  · have hforward := round_spec html low tag pos
    rw [_h] at hforward
    exact Nat.sub_lt_sub_left hforward.2.1 hforward.1
  · have hforward := round_spec html low tag pos
    rw [_h] at hforward
    exact Nat.sub_lt_sub_left hforward.lt_length hforward.lt_stop

def iterBlocks (U : Unicode) (html tag : Str) : List Block :=
  iterBlocksFrom html (U.lower html) tag 0

example : iterBlocks .ascii "a<SVG x><svgfoo></svg >b<svg".toList "svg".toList =
    [⟨1, 8, 16, 23, " x".toList⟩] := by
  decide +kernel

section

variable {html low tag : Str} {sees : Str → ℕ → Prop} {pos : ℕ}

theorem EndsAt.unique {i e e' : ℕ} (h : EndsAt html tag sees i e)
    (h' : EndsAt html tag sees i e') : e = e' := by
  rcases h with h | ⟨hnone, rfl⟩
  · rcases h' with h' | ⟨hnone, -⟩
    · exact h.unique h'
    · exact absurd h.1.2 (hnone e h.1.1)
  · rcases h' with h' | ⟨-, rfl⟩
    · exact absurd h'.1.2 (hnone e' h'.1.1)
    · rfl

theorem FirstBlock.unique {b b' : Block} (h : FirstBlock html tag sees pos b)
    (h' : FirstBlock html tag sees pos b') : b = b' := by
  cases b with
  | mk start bodyStart bodyEnd stop attrs =>
    cases b' with
    | mk start' bodyStart' bodyEnd' stop' attrs' =>
      obtain ⟨hstart, ⟨gt, hgt, hbody, hattrs⟩, hclose, hstop⟩ := h
      obtain ⟨hstart', ⟨gt', hgt', hbody', hattrs'⟩, hclose', hstop'⟩ := h'
      dsimp only at *
      obtain rfl := hstart.unique hstart'
      obtain rfl := hgt.unique hgt'
      subst hbody hbody'
      obtain rfl := hclose.unique hclose'
      rw [hstop, hstop', hattrs, hattrs']

theorem Blocks.unique {bs bs' : List Block} (h : Blocks html tag sees pos bs)
    (h' : Blocks html tag sees pos bs') : bs = bs' := by
  induction bs generalizing pos bs' with
  | nil =>
    cases bs' with
    | nil => rfl
    | cons b' bs' => exact absurd h'.1.start.1.2 (h _ h'.1.start.1.1)
  | cons b bs ih =>
    cases bs' with
    | nil => exact absurd h.1.start.1.2 (h' _ h.1.start.1.1)
    | cons b' bs' =>
      obtain rfl := h.1.unique h'.1
      rw [ih h.2 h'.2]

theorem Blocks.congr {shows : Str → ℕ → Prop} {bs : List Block}
    (hopen : ∀ p, sees (openNeedle tag) p ↔ shows (openNeedle tag) p)
    (hclose : ∀ p, sees (closeNeedle tag) p ↔ shows (closeNeedle tag) p)
    (h : Blocks html tag sees pos bs) : Blocks html tag shows pos bs := by
  induction bs generalizing pos with
  | nil => simpa only [Blocks, Opening, hopen] using h
  | cons b bs ih =>
    obtain ⟨⟨hstart, hgt, hend, hstop⟩, hrest⟩ := h
    simp only [Opening, EndsAt, hopen, hclose] at hstart hend
    exact ⟨⟨hstart, hgt, hend, hstop⟩, ih hrest⟩

theorem Blocks.of_le {pos' : ℕ} {bs : List Block} (hle : pos ≤ pos')
    (hpass : ∀ p, pos ≤ p → Opening html tag sees p → pos' ≤ p)
    (h : Blocks html tag sees pos' bs) : Blocks html tag sees pos bs := by
  cases bs with
  | nil => exact fun p hp hopening => h p (hpass p hp hopening) hopening
  | cons b bs =>
    obtain ⟨⟨hstart, hgt, hclose, hstop⟩, hrest⟩ := h
    refine ⟨⟨⟨⟨hle.trans hstart.1.1, hstart.1.2⟩, ?_⟩, hgt, hclose, hstop⟩, hrest⟩
    exact fun p hp => hstart.2 ⟨hpass p hp.1 hp.2, hp.2⟩

theorem not_opening_of_length_le {p : ℕ} (hp : html.length ≤ p) : ¬ Opening html tag sees p := by
  rintro ⟨-, -, q, hq, hgt⟩
  have hlt : q < html.length := (List.getElem?_eq_some_iff.mp hgt).1
  omega

theorem blocks_iterBlocksFrom (htag : '<' ∉ tag) :
    Blocks html tag (OccursAt · low) pos (iterBlocksFrom html low tag pos) := by
  fun_induction iterBlocksFrom html low tag pos with
  | case1 pos hr =>
    have hround := round_spec html low tag pos
    rwa [hr] at hround
  | case2 pos pos' hr ih =>
    have hround := round_spec html low tag pos
    rw [hr] at hround
    exact ih.of_le hround.1.le (hround.2.2 htag)
  | case3 pos b hr =>
    have hround := round_spec html low tag pos
    rw [hr] at hround
    exact ⟨hround.1, fun p hp => not_opening_of_length_le (hround.2 ▸ hp)⟩
  | case4 pos b hr ih =>
    have hround := round_spec html low tag pos
    rw [hr] at hround
    exact ⟨hround, ih⟩

end

/-! ## The blocks of a document -/

/-- An opening tag stands at the position `p`, up to the case of ASCII letters. -/
def OpensAt (html tag : Str) (p : ℕ) : Prop :=
  OccursAt (openNeedle tag) (fold html) p ∧
    ∃ c ∈ nameEnds, html[p + (openNeedle tag).length]? = some c

/-- The block is a block of the document: an opening tag up to the first `>`, and a body up to
the first closing tag or the end of the document. -/
structure IsBlock (html tag : Str) (b : Block) : Prop where
  start_lt : b.start < b.bodyStart
  bodyStart_le : b.bodyStart ≤ b.bodyEnd
  bodyEnd_le : b.bodyEnd ≤ b.stop
  stop_le : b.stop ≤ html.length
  opens : OpensAt html tag b.start
  gt : IsLeast {j | b.start + (openNeedle tag).length ≤ j ∧ html[j]? = some '>'}
    (b.bodyStart - 1)
  close : IsLeast {j | b.bodyStart ≤ j ∧ OccursAt (closeNeedle tag) (fold html) j} b.bodyEnd ∨
    (∀ j, b.bodyStart ≤ j → ¬ OccursAt (closeNeedle tag) (fold html) j) ∧
      b.bodyEnd = html.length

/-- The blocks are blocks of the document, in order and without overlap, and no opening tag
that is followed by a `>` lies outside them. -/
structure FindsBlocks (html tag : Str) (pos : ℕ) (bs : List Block) : Prop where
  isBlock : ∀ b ∈ bs, IsBlock html tag b
  from_pos : ∀ b ∈ bs, pos ≤ b.start
  ordered : bs.Pairwise fun a b => a.stop ≤ b.start
  complete : ∀ p, pos ≤ p → OpensAt html tag p →
    (∃ q, p + (openNeedle tag).length ≤ q ∧ html[q]? = some '>') →
    ∃ b ∈ bs, b.start ≤ p ∧ p < b.stop

section

variable {html tag : Str} {sees : Str → ℕ → Prop} {pos : ℕ}

/-! ## The blocks that are seen in the document itself -/

theorem FirstBlock.isBlock {b : Block}
    (h : FirstBlock html tag (OccursAt · (fold html)) pos b) : IsBlock html tag b := by
  obtain ⟨hstart, ⟨gt, hgt, hbody, -⟩, hclose, hstop⟩ := h
  have hafter : b.start + (openNeedle tag).length ≤ gt := hgt.1.1
  have hlast : gt < html.length := (List.getElem?_eq_some_iff.mp hgt.1.2).1
  have hend : b.bodyStart ≤ b.bodyEnd ∧ b.bodyEnd ≤ html.length := by
    rcases hclose with hleast | ⟨-, hend⟩
    · have hfit := hleast.1.2.le_length (cons_ne_nil _ _)
      rw [fold, length_map] at hfit
      exact ⟨hleast.1.1, Nat.le_of_add_right_le hfit⟩
    · omega
  refine ⟨by omega, hend.1, ?_, hstop ▸ closeEnd_le _ _, ⟨hstart.1.2.1, hstart.1.2.2.1⟩, ?_, hclose⟩
  · rw [hstop]
    exact le_closeEnd (Nat.le_add_right _ _) hend.2
  · rwa [hbody, Nat.add_sub_cancel]

theorem IsBlock.start_lt_stop {b : Block} (h : IsBlock html tag b) : b.start < b.stop :=
  h.start_lt.trans_le (h.bodyStart_le.trans h.bodyEnd_le)

theorem findsBlocks_of_blocks {bs : List Block}
    (h : Blocks html tag (OccursAt · (fold html)) pos bs) : FindsBlocks html tag pos bs := by
  induction bs generalizing pos with
  | nil =>
    refine ⟨by simp, by simp, .nil, fun p hp hopens hgt => ?_⟩
    exact absurd ⟨hopens.1, hopens.2, hgt⟩ (h p hp)
  | cons b bs ih =>
    have ⟨hfirst, hrest⟩ := h
    have hblock := hfirst.isBlock
    have hlater := ih hrest
    refine ⟨forall_mem_cons.mpr ⟨hblock, hlater.isBlock⟩,
      forall_mem_cons.mpr ⟨hfirst.start.1.1, fun b' hb' => ?_⟩,
      pairwise_cons.mpr ⟨hlater.from_pos, hlater.ordered⟩, fun p hp hopens hgt => ?_⟩
    · have hpos : pos ≤ b.start := hfirst.start.1.1
      exact hpos.trans (hblock.start_lt_stop.le.trans (hlater.from_pos b' hb'))
    · rcases Nat.lt_or_ge p b.stop with hlt | hge
      · exact ⟨b, mem_cons_self .., hfirst.start.2 ⟨hp, hopens.1, hopens.2, hgt⟩, hlt⟩
      · obtain ⟨b', hb', hin⟩ := hlater.complete p hge hopens hgt
        exact ⟨b', mem_cons_of_mem _ hb', hin⟩

theorem FindsBlocks.tail {b : Block} {bs : List Block}
    (h : FindsBlocks html tag pos (b :: bs)) : FindsBlocks html tag b.stop bs := by
  have hordered := pairwise_cons.mp h.ordered
  refine ⟨(forall_mem_cons.mp h.isBlock).2, hordered.1, hordered.2, fun p hp hopens hgt => ?_⟩
  have hpos : pos ≤ b.start := (forall_mem_cons.mp h.from_pos).1
  have hblock := (forall_mem_cons.mp h.isBlock).1
  obtain ⟨b', hb', hle, hlt⟩ := h.complete p
    (hpos.trans (hblock.start_lt_stop.le.trans hp)) hopens hgt
  rcases mem_cons.mp hb' with rfl | hb'
  · omega
  · exact ⟨b', hb', hle, hlt⟩

theorem FindsBlocks.isLeast_start {b : Block} {bs : List Block}
    (h : FindsBlocks html tag pos (b :: bs)) :
    IsLeast {p | pos ≤ p ∧ Opening html tag (OccursAt · (fold html)) p} b.start := by
  have hblock := (forall_mem_cons.mp h.isBlock).1
  have hlater := (pairwise_cons.mp h.ordered).1
  refine ⟨⟨h.from_pos b (mem_cons_self ..), hblock.opens.1, hblock.opens.2, _, hblock.gt.1⟩, ?_⟩
  rintro p ⟨hp, hat, hnext, hgt⟩
  obtain ⟨b', hb', hle, -⟩ := h.complete p hp ⟨hat, hnext⟩ hgt
  rcases mem_cons.mp hb' with rfl | hb'
  · exact hle
  · exact hblock.start_lt_stop.le.trans ((hlater b' hb').trans hle)

theorem blocks_of_findsBlocks {bs : List Block} (h : FindsBlocks html tag pos bs)
    (hseen : Blocks html tag sees pos bs) : Blocks html tag (OccursAt · (fold html)) pos bs := by
  induction bs generalizing pos with
  | nil =>
    rintro p hp ⟨hat, hnext, hgt⟩
    obtain ⟨b, hb, -⟩ := h.complete p hp ⟨hat, hnext⟩ hgt
    cases hb
  | cons b bs ih =>
    obtain ⟨hfirst, hrest⟩ := hseen
    have hblock := (forall_mem_cons.mp h.isBlock).1
    exact ⟨⟨h.isLeast_start, hfirst.gt, hblock.close, hfirst.stop⟩, ih h.tail hrest⟩

/-! ## Two ways to see a document -/

variable {shows : Str → ℕ → Prop} {bs : List Block}

/-- From `pos` on, both ways see the first opening tag at the same position. -/
def SameOpening (html tag : Str) (sees shows : Str → ℕ → Prop) (pos : ℕ) : Prop :=
  ∀ p, IsLeast {p | pos ≤ p ∧ Opening html tag sees p} p ↔
    IsLeast {p | pos ≤ p ∧ Opening html tag shows p} p

theorem exists_first {P : ℕ → Prop} {p : ℕ} (hp : pos ≤ p) (h : P p) :
    ∃ q, IsLeast {j | pos ≤ j ∧ P j} q := by
  classical
  have hex : ∃ j, pos ≤ j ∧ P j := ⟨p, hp, h⟩
  exact ⟨Nat.find hex, Nat.find_spec hex, fun j hj => Nat.find_min' hex hj⟩

/-- The blocks that are seen in one way are those that are seen in the other exactly if the
first opening tag is the same from the beginning and behind every block, and the first closing
tag is the same in every block. -/
theorem blocks_iff_of_blocks (h : Blocks html tag sees pos bs) :
    Blocks html tag shows pos bs ↔
      SameOpening html tag sees shows pos ∧
        ∀ b ∈ bs, EndsAt html tag shows b.bodyStart b.bodyEnd ∧
          SameOpening html tag sees shows b.stop := by
  induction bs generalizing pos with
  | nil =>
    simp only [not_mem_nil, false_implies, implies_true, and_true]
    constructor
    · exact fun hshows p => iff_of_false (fun hp => h p hp.1.1 hp.1.2)
        fun hp => hshows p hp.1.1 hp.1.2
    · intro hsame p hp hopening
      obtain ⟨q, hq⟩ := exists_first hp hopening
      have hfirst := (hsame q).mpr hq
      exact h q hfirst.1.1 hfirst.1.2
  | cons b bs ih =>
    obtain ⟨hfirst, hrest⟩ := h
    rw [Blocks, ih hrest, forall_mem_cons, and_assoc]
    constructor
    · rintro ⟨hshows, hmore⟩
      refine ⟨fun p => ?_, hshows.close, hmore⟩
      exact ⟨fun hp => hfirst.start.unique hp ▸ hshows.start,
        fun hp => hshows.start.unique hp ▸ hfirst.start⟩
    · rintro ⟨hsame, hclose, hmore⟩
      exact ⟨⟨(hsame _).mp hfirst.start, hfirst.gt, hclose, hfirst.stop⟩, hmore⟩

end

/-! ## The scan through the lower-cased copy -/

def scannedTags : List Str := ["script".toList, "style".toList, "svg".toList]

theorem plain_of_mem_scannedTags {tag : Str} (htag : tag ∈ scannedTags) :
    '<' ∉ tag ∧ Unicode.Plain (openNeedle tag) ∧ Unicode.Plain (closeNeedle tag) := by
  simp only [scannedTags, mem_cons, not_mem_nil, or_false] at htag
  rcases htag with rfl | rfl | rfl
  · decide
  · decide
  · decide

/-- A text of the document is seen through the copy where the dotted letters shift it to. -/
def Seen (html needle : Str) (p : ℕ) : Prop :=
  ∃ i, OccursAt needle (fold html) i ∧ Unicode.shifted html i = p

/-- The blocks of the document, found without a copy. -/
def documentBlocks (html tag : Str) : List Block := iterBlocksFrom html (fold html) tag 0

/-- The dotted letters hide no block and fake none: from the beginning and behind every block
of the document, the first opening tag is seen where it stands, and so is the first closing
tag behind the opening tag of every block. -/
def Undisturbed (html tag : Str) : Prop :=
  SameOpening html tag (OccursAt · (fold html)) (Seen html) 0 ∧
    ∀ b ∈ documentBlocks html tag, EndsAt html tag (Seen html) b.bodyStart b.bodyEnd ∧
      SameOpening html tag (OccursAt · (fold html)) (Seen html) b.stop

theorem blocks_iterBlocks {U : Unicode} (hU : U.LowersEach) {html tag : Str}
    (htag : tag ∈ scannedTags) : Blocks html tag (Seen html) 0 (iterBlocks U html tag) := by
  obtain ⟨hname, hopen, hclose⟩ := plain_of_mem_scannedTags htag
  refine (blocks_iterBlocksFrom hname).congr ?_ ?_
  · exact hU.occursAt_lower hopen (cons_ne_nil _ _)
  · exact hU.occursAt_lower hclose (cons_ne_nil _ _)

/-- The scanner finds exactly the blocks of the document if and only if the dotted letters do
not disturb it. -/
theorem iterBlocks_finds_blocks_iff {U : Unicode} (hU : U.LowersEach) (html tag : Str)
    (htag : tag ∈ scannedTags) :
    FindsBlocks html tag 0 (iterBlocks U html tag) ↔ Undisturbed html tag := by
  have hseen := @blocks_iterBlocks _ hU html _ htag
  have hdocument : Blocks html tag (OccursAt · (fold html)) 0 (documentBlocks html tag) :=
    blocks_iterBlocksFrom (plain_of_mem_scannedTags htag).1
  rw [Undisturbed, ← blocks_iff_of_blocks hdocument]
  constructor
  · intro h
    rwa [← (blocks_of_findsBlocks h hseen).unique hdocument]
  · intro h
    rw [hseen.unique h]
    exact findsBlocks_of_blocks hdocument

theorem occursAt_iff_seen {html needle : Str}
    (hdot : ∀ i, OccursAt needle (fold html) i → 'İ' ∉ html.take i) (p : ℕ) :
    OccursAt needle (fold html) p ↔ Seen html needle p := by
  have hsame : ∀ i, OccursAt needle (fold html) i → Unicode.shifted html i = i := fun i hi => by
    rw [Unicode.shifted, count_eq_zero.mpr (hdot i hi), Nat.add_zero]
  constructor
  · exact fun h => ⟨p, h, hsame p h⟩
  · rintro ⟨i, hi, rfl⟩
    rwa [hsame i hi]

/-- Nothing is disturbed where the dotted letter stands before no tag. -/
theorem undisturbed_of_tags_before_dot {html tag : Str} (htag : tag ∈ scannedTags)
    (hopen : ∀ i, OccursAt (openNeedle tag) (fold html) i → 'İ' ∉ html.take i)
    (hclose : ∀ i, OccursAt (closeNeedle tag) (fold html) i → 'İ' ∉ html.take i) :
    Undisturbed html tag := by
  have hdocument : Blocks html tag (OccursAt · (fold html)) 0 (documentBlocks html tag) :=
    blocks_iterBlocksFrom (plain_of_mem_scannedTags htag).1
  exact (blocks_iff_of_blocks hdocument).mp
    (hdocument.congr (occursAt_iff_seen hopen) (occursAt_iff_seen hclose))

theorem script_before_dot_found :
    Undisturbed "<SCRIPT>a</script>İ".toList "script".toList ∧
      FindsBlocks "<SCRIPT>a</script>İ".toList "script".toList 0
        (iterBlocks .dotted "<SCRIPT>a</script>İ".toList "script".toList) := by
  have hbefore : ∀ needle : Str, 6 ≤ needle.length →
      ∀ i, OccursAt needle (fold "<SCRIPT>a</script>İ".toList) i →
        'İ' ∉ "<SCRIPT>a</script>İ".toList.take i := by
    intro needle hneedle i hi hmem
    have hfit := hi.le_length (ne_nil_of_length_pos (by omega))
    have hle : i ≤ 13 := by
      change i + needle.length ≤ 19 at hfit
      omega
    have hmem13 := (take_prefix_take_left hle).subset hmem
    revert hmem13
    decide
  have hundisturbed : Undisturbed "<SCRIPT>a</script>İ".toList "script".toList :=
    undisturbed_of_tags_before_dot (by decide) (hbefore _ (by decide)) (hbefore _ (by decide))
  exact ⟨hundisturbed,
    (iterBlocks_finds_blocks_iff Unicode.lowersEach_dotted _ _ (by decide)).mpr hundisturbed⟩

/-- Behind the dotted letter the copy has the tag one place further on, and the name of the
tag seems to go on there. The scanner finds no block, under every lower-casing that maps as
the program's does. -/
theorem dotted_letter_hides_script : Unicode.dotted.LowersEach ∧
    ∀ U : Unicode, U.LowersEach →
      iterBlocks U "İ<script>a</script>".toList "script".toList = [] ∧
        ¬ FindsBlocks "İ<script>a</script>".toList "script".toList 0
          (iterBlocks U "İ<script>a</script>".toList "script".toList) := by
  refine ⟨Unicode.lowersEach_dotted, fun U hU => ?_⟩
  have hlower : U.lower "İ<script>a</script>".toList =
      Unicode.dotted.lower "İ<script>a</script>".toList := by
    apply hU.lower_eq
    simp
  have hnone : iterBlocks U "İ<script>a</script>".toList "script".toList = [] := by
    rw [iterBlocks, hlower]
    decide +kernel
  refine ⟨hnone, fun hfinds => ?_⟩
  rw [hnone] at hfinds
  have hopens : OpensAt "İ<script>a</script>".toList "script".toList 1 :=
    ⟨by decide, '>', by decide, rfl⟩
  obtain ⟨b, hb, -⟩ := hfinds.complete 1 (Nat.zero_le 1) hopens ⟨8, le_rfl, rfl⟩
  cases hb

end Html

end EmailExtractor
