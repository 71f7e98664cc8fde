import Cypher.Proofs.Enclosed.Clause
import Cypher.Proofs.Enclosed.Expression

/-!
# Queries around an operand in parentheses

A query is read with its operand refused, and is not accepted; so the run that
accepts it has gone into the operand, and comes out behind the parentheses.
-/

namespace Cypher.Grammar

open Token (Kind)
open Insertion

variable {κ : Insertion} {config config' : Config} {refusing : Parser Expression} {d : Nat}

/-- Behind `CYPHER` a number is no operand, and what is read there has gone over
the seam. -/
theorem shadowed_version (law : κ.Lawful) : Shadowed κ d version version version [] [.value] := by
  refine .consume law rfl (.plain rfl (by simp)) ?_ (.pure _)
  refine .current (fun o read s hfits h => ?_) fun o read s hfits h hs hapt => ?_
  · split
    · next hdue => exact .advance law (by rw [hdue]; exact nofun) (.pure _)
    · next hdue => exact .advance law (by rw [hdue]; exact nofun) (.pure _)
    · exact .fail
  · refine .strays hs ?_
    split
    · next hdue => exact .advance hs h.ended (by rw [hdue]; exact nofun) .pure
    · next hdue => exact .advance hs h.ended (by rw [hdue]; exact nofun) .pure
    · exact fun _ _ hrun => by cases hrun

/-- At the end of a text no operand stands. -/
theorem shadowed_endOfQuery (law : κ.Lawful) :
    Shadowed κ (d + 1) endOfQuery endOfQuery endOfQuery [] [.value, .call] := by
  refine .current (fun o read s hfits h => ?_) fun o read s hfits h hs hapt => ?_
  · split
    · exact .pure ()
    · exact .fail
  · rw [if_neg ((law.opening (h.opens_of_seam hfits hs) hapt).current_ne hs rfl)]
    exact .fail

section Whole

variable (hexpr : ShadowedValues κ (expression config) refusing (expression config'))
  (room : κ.Roomier config config')

include hexpr room

omit room in
theorem shadowed_singleQuery :
    Shadowed κ (d + 1) (singleQuery config) (singleQueryOver refusing) (singleQuery config') []
      [.value] := by
  have hclause := covers_clause hexpr.covers
  have hclauses := Shadowed.many hexpr.law (shortens_clause hexpr.coincides) hclause
    (shadowed_clause (d := d) hexpr)
  refine .start hexpr.law fun begin => ?_
  refine (hclauses.mono (by simp)).bind (hclause.many.mono (by simp) (List.Subset.refl _))
    fun clauses => ?_
  split
  · exact .fail
  · exact .spanFrom fun _ => .pure _

theorem shadowed_joinPart {left : Joined} :
    Shadowed κ (d + 1) (joinPart config left) (joinPartOver config refusing left)
      (joinPart config' left) [] [.value, .call] := by
  have law := hexpr.law
  have hright := shadowed_singleQuery (d := d) hexpr
  refine .consume law rfl (.plain rfl (by simp)) (.map (.checkHeight room ?_)) (.pure _)
  exact .consume law rfl (.plain rfl (by simp)) hright.map hright.map

theorem shadowed_queryBody :
    Shadowed κ (d + 1) (queryBody config) (queryBodyOver config refusing) (queryBody config') []
      [.value] := by
  intro o read s hfits h
  refine (shadowed_singleQuery hexpr hfits h).bind (covers_singleQuery room.recover h)
    fun first s h => ?_
  have hwhole : Shadows κ (iterate (joinPart config) ⟨.single first, 1⟩)
      (iterate (joinPartOver config refusing) ⟨.single first, 1⟩)
      (iterate (joinPart config') ⟨.single first, 1⟩) s := by
    refine .iterate (Q := fun j s => At o (read ++ j.body.leaves) [] [.value, .call] s) hexpr.law
      h.ended h (proceeds_joinPart config) (consumes_joinPart config)
      (fun j s h => (leads_joinPart room.recover h).mono fun r s h j' hr => ?_)
      fun j s _ h => shadowed_joinPart hexpr room hfits h
    rw [hr] at h
    exact h
  exact hwhole.map

theorem shadowed_query :
    Shadowed κ (d + 1) (query config) (queryOver config refusing) (query config') [] [.value] := by
  have law := hexpr.law
  refine .start law fun begin => (shadowed_version law).bind covers_version fun header => ?_
  refine (shadowed_queryBody hexpr room).bind (covers_queryBody room.recover) fun body => ?_
  exact fun o read s hfits h => (shadowed_endOfQuery law hfits h).andThen fun _ _ =>
    .spanFrom fun _ => .pure _

end Whole

end Cypher.Grammar
