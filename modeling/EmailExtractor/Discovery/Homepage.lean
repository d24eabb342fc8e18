import EmailExtractor.Discovery.SameSite

/-!
# The homepage among its own sub-pages

Nothing in discovery leaves out a link back to the homepage. Such a link is no candidate as
long as it gets no score: the path of the homepage has no keyword of a tier in it, and the
text of the link none of the anchor keywords. A link such as `/#quote` has the canonical URL
of the homepage, and its text alone gives it a score; it is then selected unless better
candidates outbid it.
-/

namespace EmailExtractor

namespace Discovery

open Url Normalize

variable {W : Web}

theorem anchorMatches_nil {U : Unicode} (hU : U.LowersParts) : anchorMatches U [] = false := by
  have hlower : U.lower [] = [] := (hU.each.lower_eq_nil_iff []).mpr rfl
  unfold anchorMatches
  rw [hlower]
  rfl

theorem anchorMatches_of_scoreUrl {U : Unicode} {url anchor : Str} {c : ScoredUrl}
    (h : scoreUrl U url anchor = .ok (some c)) (htier : c.tier = none) :
    anchorMatches U anchor = true := by
  obtain ⟨parts, _, -, -, -, -, hname, hscore, hne, -⟩ := scoreUrl_cases h
  have hbase : (tierFor U (rawPath parts)).2 = 0 := by
    rcases tierFor_cases U (rawPath parts) with hnone | ⟨hsome, -⟩
    · rw [hnone]
    · rw [← hname, htier] at hsome
      cases hsome
  rw [hbase, Nat.zero_add] at hscore
  rw [hscore] at hne
  by_contra hno
  exact hne (if_neg hno)

namespace Site

/-- The homepage gives no link to itself a score: its path has no tier, and the text of no
kept link with its canonical URL has a keyword. -/
structure Unscored (W : Web) (S : Site) (canon : Str) : Prop where
  tier : ∀ final, urlsplit W.unicode S.finalUrl = .ok final →
    (tierFor W.unicode (rawPath final)).1 = none
  texts : ∀ l ∈ S.links W, canonical W.unicode l.1 = .ok canon →
    anchorMatches W.unicode l.2 = false

variable {S : Site} {canon : Str} {final : SplitResult} {c : ScoredUrl}

theorem url_ne_of_unscored (hU : W.unicode.LowersParts) (hF : W.unicode.FoldsCase)
    (hfinal : urlsplit W.unicode S.finalUrl = .ok final)
    (hcanon : canonical W.unicode S.finalUrl = .ok canon) (hhome : S.Unscored W canon)
    (hc : c ∈ S.offered W final) : c.url ≠ canon := by
  rintro rfl
  obtain ⟨u, anchor, hlink, hscore⟩ : ∃ u anchor, ((u, anchor) ∈ S.links W ∨ anchor = []) ∧
      scoreUrl W.unicode u anchor = .ok (some c) := by
    rcases offered_cases hc with ⟨u, anchor, hfind, hscore⟩ | ⟨_, u, -, -, hscore⟩
    · exact ⟨u, anchor, hfind.imp_right fun hpage => hpage.2.2, hscore⟩
    · exact ⟨u, [], .inr rfl, hscore⟩
  obtain ⟨parts, _, -, hurl, -⟩ := scoreUrl_cases hscore
  -- the canonical URL is that of the homepage, and with it the tier
  have htier : c.tier = none := by
    rw [Scored.tier_eq hU hF ⟨u, anchor, hscore⟩, ← tierFor_of_canonical hU hF hfinal hcanon]
    exact hhome.tier final hfinal
  have hmatch := anchorMatches_of_scoreUrl hscore htier
  rcases hlink with hlink | rfl
  · rw [hhome.texts _ hlink hurl] at hmatch
    cases hmatch
  · rw [anchorMatches_nil hU] at hmatch
    cases hmatch

def homeWeb (href text : String) : Web where
  unicode := .dotted
  extract := oneLabelSuffix
  anchors _ := [⟨"/contact".toList, "Contact".toList⟩, ⟨"/about".toList, "About us".toList⟩,
    ⟨href.toList, text.toList⟩]
  unescape := id

end Site

end Discovery

end EmailExtractor
