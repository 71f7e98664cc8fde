import Cypher.Grammar.Expression
import Cypher.Proofs.Derived.Complete

/-!
# What is read as a path

A text without maps is read as a path to its end exactly if it belongs to the
grammar of paths, and the tree is the one that it is written for. A text that
would belong to it, were its numbers not too large, is refused for one of them.
-/

namespace Cypher

open Token (Kind)

namespace Derived

variable {fits : Nat → Prop} {ts : List Token}

theorem Optional.fits_bound {bound : Option Nat} (h : Optional (Bound fits) ts bound) {n : Nat}
    (hn : n ∈ bound.toList) : fits n := by
  cases h with
  | absent => cases hn
  | present part =>
    cases part with
    | mk due fit =>
      rw [Option.toList_some, List.mem_singleton] at hn
      exact hn ▸ fit

theorem Range.fits_bound {range : HopRange} (h : Range fits ts range) {n : Nat}
    (hn : n ∈ range.min.toList ++ range.max.toList) : fits n := by
  cases h with
  | single bound => exact (List.mem_append.1 hn).elim bound.fits_bound bound.fits_bound
  | range lower due upper => exact (List.mem_append.1 hn).elim lower.fits_bound upper.fits_bound

theorem Bracketed.fits_bound {d : Grammar.Detail} (h : Bracketed fits ts d) {range : HopRange}
    (hrange : range ∈ d.hops) {n : Nat} (hn : n ∈ range.min.toList ++ range.max.toList) :
    fits n := by
  cases h with
  | absent => cases hrange
  | present opened inner closed =>
    cases inner with
    | mk named typed bounded constrained =>
      cases bounded with
      | absent => cases hrange
      | present part =>
        cases hrange
        cases part with
        | mk due part => exact part.fits_bound hn

/-- The bounds of a path are numbers that fit. -/
theorem Path.fits_bound {p : Pattern} (h : Path fits ts p) {n : Nat} (hmem : n ∈ bounds p) :
    fits n := by
  have hsteps {ts : List Token} {chain : List Link} (h : Repeated (Step fits) ts chain)
      {l : Link} (hl : l ∈ chain) {range : HopRange} (hrange : range ∈ l.relationship.hops)
      (hn : n ∈ range.min.toList ++ range.max.toList) : fits n := by
    induction h with
    | nil => cases hl
    | cons first others ih =>
      rcases List.mem_cons.1 hl with rfl | hl
      · cases first with
        | mk crossed reached =>
          cases crossed with
          | undirected opened inner closed => exact inner.fits_bound hrange hn
          | outgoing opened inner closed => exact inner.fits_bound hrange hn
          | incoming headed opened inner closed => exact inner.fits_bound hrange hn
      · exact ih hl
  obtain ⟨l, hl, hmem⟩ := List.mem_flatMap.1 hmem
  obtain ⟨range, hrange, hn⟩ := List.mem_flatMap.1 hmem
  cases h with
  | plain start steps => exact hsteps steps hl (Option.mem_toList.1 hrange) hn
  | named due bound start steps => exact hsteps steps hl (Option.mem_toList.1 hrange) hn

end Derived

namespace Grammar

open Derived

/-- A text without maps is read as a path to its end, whatever the configuration, exactly if it
is written for one with all its bounds below the thirty-second power of two, and the answer is
that path. If it is written for a path but for a bound that is not, the run stops with the
code for such numbers. -/
theorem pattern_ok_iff_path (config : Config) {s : State} (hs : s.Mapless) :
    (∀ p, (∃ q s', pattern (expression config) s = .ok q s' ∧ s'.ahead = [] ∧ q.erase = p)
        ↔ Path (· < 2 ^ 32) s.ahead p)
    ∧ ∀ p, Path (fun _ => True) s.ahead p → (∃ n ∈ bounds p, 2 ^ 32 ≤ n) →
      ∃ fault s', pattern (expression config) s = .error fault s'
        ∧ fault.cause.code = "P005" := by
  have hsound {q : Pattern} {s' : State} (hrun : pattern (expression config) s = .ok q s')
      (hrest : s'.ahead = []) : Path (· < 2 ^ 32) s.ahead q.erase := by
    obtain ⟨ts, hts, hpath⟩ := finds_pattern hs q s' hrun
    rw [hts.tokens, hrest, List.append_nil]
    exact hpath
  refine ⟨fun p => ⟨?_, fun hpath => ?_⟩, fun p hpath hlarge => ?_⟩
  · rintro ⟨q, s', hrun, hrest, rfl⟩
    exact hsound hrun hrest
  · have hexpects : Expects (fun _ => False) (· < 2 ^ 32) := fun _ _ _ fit => .inl fit
    rcases arrives_pattern (expression config) hexpects hpath with
      ⟨q, s', hrun, hrest, hq⟩ | ⟨fault, s', -, hnever⟩
    · exact ⟨q, s', hrun, hrest, hq⟩
    · exact hnever.elim
  · have hexpects : Expects (fun fault => fault.cause.code = "P005") fun _ => True :=
      fun _ _ _ _ => .inr rfl
    rcases arrives_pattern (expression config) hexpects hpath with
      ⟨q, s', hrun, hrest, rfl⟩ | herror
    · obtain ⟨n, hn, hle⟩ := hlarge
      exact absurd ((hsound hrun hrest).fits_bound hn) (Nat.not_lt_of_le hle)
    · exact herror

private def mark (kind : Kind) : Token := ⟨kind, .nowhere, 1, kind.text⟩

/-- In front of a path whose one step takes as many hops as the digits say. -/
private def hopping (digits : String) : State where
  ahead :=
    [mark (.punctuation .lparen), mark (.punctuation .rparen), mark (.operator .minus),
      mark (.punctuation .lbracket), mark (.operator .star), mark (.integer digits),
      mark (.punctuation .rbracket), mark (.operator .minus), mark (.punctuation .lparen),
      mark (.punctuation .rparen)]
  eof := mark .eof

private def hoppingPath (n : Nat) : Pattern :=
  let node : NodePattern := ⟨none, [], none, .nowhere⟩
  ⟨none, node, [⟨⟨.undirected, none, [], some ⟨some n, some n⟩, none, .nowhere⟩, node⟩], .nowhere⟩

private theorem path_hopping {fits : Nat → Prop} {digits : String}
    (fit : fits (placeValue digits)) :
    Path fits (hopping digits).ahead (hoppingPath (placeValue digits)) := by
  have hnode : Node [mark (.punctuation .lparen), mark (.punctuation .rparen)]
      ⟨none, [], none, .nowhere⟩ := .mk rfl .absent .nil .absent rfl
  have hstar : Behind (.operator .star) (Range fits)
      [mark (.operator .star), mark (.integer digits)]
      ⟨some (placeValue digits), some (placeValue digits)⟩ :=
    .mk rfl (.single (.present (.mk rfl fit)))
  have hinner : Derived.Detail fits [mark (.operator .star), mark (.integer digits)]
      ⟨none, [], some ⟨some (placeValue digits), some (placeValue digits)⟩, none⟩ :=
    .mk .absent .none (.present hstar) .absent
  have hbrackets : Bracketed fits
      [mark (.punctuation .lbracket), mark (.operator .star), mark (.integer digits),
        mark (.punctuation .rbracket)]
      ⟨none, [], some ⟨some (placeValue digits), some (placeValue digits)⟩, none⟩ :=
    .present rfl hinner rfl
  have hcrossed : Relationship fits
      [mark (.operator .minus), mark (.punctuation .lbracket), mark (.operator .star),
        mark (.integer digits), mark (.punctuation .rbracket), mark (.operator .minus)]
      (relationship .undirected
        ⟨none, [], some ⟨some (placeValue digits), some (placeValue digits)⟩, none⟩) :=
    .undirected rfl hbrackets rfl
  exact .plain hnode (.cons (Step.mk hcrossed hnode) .nil)

/-- Seven hops, with zeros in front, and one hop more than there may be. -/
theorem pattern_ok_iff_path_hopping :
    (hopping "007").Mapless ∧ (hopping "4294967296").Mapless
    ∧ (∃ q s', pattern (expression {}) (hopping "007") = .ok q s' ∧ s'.ahead = []
      ∧ q.erase = hoppingPath 7)
    ∧ ∃ fault s', pattern (expression {}) (hopping "4294967296") = .error fault s'
      ∧ fault.cause.code = "P005" := by
  have hmapless (digits : String) : (hopping digits).Mapless :=
    ⟨rfl, by simp [hopping, mark]⟩
  have hseven : placeValue "007" = 7 := by decide +kernel
  have hlarge : placeValue "4294967296" = 2 ^ 32 := by decide +kernel
  refine ⟨hmapless _, hmapless _, ?_, ?_⟩
  · refine ((pattern_ok_iff_path {} (hmapless "007")).1 _).2 ?_
    rw [← hseven]
    exact path_hopping (by rw [hseven]; decide)
  · refine (pattern_ok_iff_path {} (hmapless "4294967296")).2 _ (path_hopping trivial) ?_
    exact ⟨_, List.mem_cons_self, hlarge.ge⟩

end Grammar

end Cypher
