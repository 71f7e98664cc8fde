import Cypher.Grammar.Pattern
import Cypher.Proofs.Ensured.Basic

/-!
# What reading a pattern ensures

The grammar takes a number for a bound only below the limit, and a
parameter in the place of a property map only from a token that is one. So
every pattern that is read is well-formed, whatever is wrong elsewhere. Of
the expressions in its property maps nothing is known but what the parser
of expressions ensures; that is the parameter `V` here.
-/

namespace Cypher.Grammar

variable {clean : Prop} {expr : Parser Expression} {V : Expression → Prop}

/-! ## Property maps -/

theorem ensures_mapEntry (hexpr : Ensures clean expr V) :
    Ensures clean (mapEntry expr) fun e => V e.value := by
  unfold mapEntry
  refine .next .start fun begin => ?_
  refine .next .symbolicName fun key => ?_
  refine .next .expect fun _ => ?_
  refine hexpr.bind fun value => ?_
  exact .map .spanFrom fun s _ hvalue => hvalue

theorem ensures_mapEntries (hexpr : Ensures clean expr V) :
    Ensures clean (mapEntries expr) fun found => ∀ e ∈ found.1, V e.value := by
  unfold mapEntries
  refine .next .start fun begin => ?_
  refine .next .expect fun _ => ?_
  refine (ensures_mapEntry hexpr).commaSeparatedUntil.bind fun entries => ?_
  refine .next .expect fun _ => ?_
  exact .map .spanFrom fun s _ hentries => hentries

theorem ensures_properties (hexpr : Ensures clean expr V) :
    Ensures clean (properties expr) fun o =>
      ∀ p ∈ o, p.Formed ∧ ∀ c ∈ p.values, V c := by
  unfold properties
  refine .bind .current fun t => ?_
  split
  · refine (ensures_mapEntries hexpr).map fun found hfound _ p hp => ?_
    cases hp
    refine ⟨trivial, ?_⟩
    rw [Properties.values, List.forall_mem_map]
    exact hfound
  · next name hkind =>
    refine .map .advance fun _ _ ht p hp => ?_
    cases hp
    rw [Token.Sound, hkind] at ht
    exact ⟨ht, List.forall_mem_nil _⟩
  · refine .pure fun _ p hp => ?_
    cases hp

/-! ## Nodes -/

theorem ensures_optionalLabels : Ensures clean optionalLabels fun _ => True := by
  unfold optionalLabels
  refine .next .current fun t => ?_
  split
  · exact Ensures.labelList.mono fun _ _ => trivial
  · exact .pure trivial

theorem ensures_nodePattern (hexpr : Ensures clean expr V) :
    Ensures clean (nodePattern expr) fun n => n.Formed ∧ ∀ c ∈ n.values, V c := by
  unfold nodePattern
  refine .next .start fun begin => ?_
  refine .next .expect fun _ => ?_
  refine .next .optionalVariable fun name => ?_
  refine ensures_optionalLabels.next fun labels => ?_
  refine (ensures_properties hexpr).bind fun found => ?_
  refine .next .expect fun _ => ?_
  refine .map .spanFrom fun s _ hfound => ⟨fun p hp => (hfound p hp).1, fun c hc => ?_⟩
  obtain ⟨p, hp, hmem⟩ := List.mem_flatMap.1 hc
  exact (hfound p (Option.mem_toList.1 hp)).2 c hmem

/-! ## Relationships -/

theorem ensures_hopBound :
    Ensures clean hopBound fun o => ∀ n ∈ o, n < hopLimit := by
  unfold hopBound
  refine .next .current fun t => ?_
  split
  · next digits =>
    split
    · next hlimit =>
      refine .map .advance fun _ _ n hn => ?_
      cases hn
      exact hlimit
    · exact .fail
  · refine .pure fun n hn => ?_
    cases hn

theorem ensures_hopRange : Ensures clean hopRange HopRange.Bounded := by
  unfold hopRange
  refine ensures_hopBound.bind fun min => ?_
  refine .next .consume fun due => ?_
  split
  · refine ensures_hopBound.map fun max hmax hmin n hn => ?_
    rcases hn with hn | hn
    · exact hmin n hn
    · exact hmax n hn
  · refine .pure fun hmin n hn => ?_
    rcases hn with hn | hn
    · exact hmin n hn
    · exact hmin n hn

theorem ensures_relationshipTypes : Ensures clean relationshipTypes fun _ => True := by
  have hanother : Ensures clean anotherType fun _ => True := by
    unfold anotherType
    exact .next .consume fun _ => .symbolicName
  unfold relationshipTypes
  refine .next .consume fun due => ?_
  split
  · refine .next .symbolicName fun first => ?_
    exact hanother.behind.many.map fun others _ => trivial
  · exact .pure trivial

/-- The hops are bounded, and the properties can be written. -/
def Detail.Formed (found : Detail) : Prop :=
  (∀ p ∈ found.properties, p.Formed) ∧ ∀ h ∈ found.hops, h.Bounded

theorem ensures_detail (hexpr : Ensures clean expr V) :
    Ensures clean (detail expr) fun found => found.Formed
      ∧ ∀ p ∈ found.properties, ∀ c ∈ p.values, V c := by
  unfold detail
  refine .next .optionalVariable fun name => ?_
  refine ensures_relationshipTypes.next fun types => ?_
  refine ensures_hopRange.behind.bind fun hops => ?_
  refine (ensures_properties hexpr).map fun found hfound hhops => ?_
  exact ⟨⟨fun p hp => (hfound p hp).1, hhops⟩, fun p hp => (hfound p hp).2⟩

theorem ensures_bracketedDetail (hexpr : Ensures clean expr V) :
    Ensures clean (bracketedDetail expr) fun found => found.Formed
      ∧ ∀ p ∈ found.properties, ∀ c ∈ p.values, V c := by
  unfold bracketedDetail
  refine .next .consume fun due => ?_
  split
  · refine (ensures_detail hexpr).bind fun found => ?_
    exact .map .expect fun _ _ hfound => hfound
  · refine .pure ⟨⟨fun p hp => ?_, fun h hh => ?_⟩, fun p hp => ?_⟩
    · cases hp
    · cases hh
    · cases hp

theorem ensures_farEnd {incoming : Bool} : Ensures clean (farEnd incoming) fun _ => True := by
  unfold farEnd
  refine .next .current fun t => ?_
  split
  · split
    · exact .fail
    · exact .map .advance fun _ _ => trivial
  · exact .map .expect fun _ _ => trivial

theorem ensures_relationshipPattern (hexpr : Ensures clean expr V) :
    Ensures clean (relationshipPattern expr) fun r => r.Formed ∧ ∀ c ∈ r.values, V c := by
  unfold relationshipPattern
  refine .next .start fun begin => ?_
  refine .next .consume fun incoming => ?_
  refine .next .expect fun _ => ?_
  refine (ensures_bracketedDetail hexpr).bind fun found => ?_
  refine ensures_farEnd.next fun direction => ?_
  refine .map .spanFrom fun s _ hfound => ⟨hfound.1, fun c hc => ?_⟩
  obtain ⟨p, hp, hmem⟩ := List.mem_flatMap.1 hc
  exact hfound.2 p (Option.mem_toList.1 hp) c hmem

/-! ## Paths -/

theorem ensures_link (hexpr : Ensures clean expr V) :
    Ensures clean (link expr) fun o => ∀ l ∈ o, l.Formed ∧ ∀ c ∈ l.values, V c := by
  unfold link
  refine .next .lookAhead fun ahead => ?_
  split
  · refine (ensures_relationshipPattern hexpr).bind fun r => ?_
    refine (ensures_nodePattern hexpr).map fun n hn hr l hl => ?_
    cases hl
    refine ⟨⟨hr.1, hn.1⟩, ?_⟩
    rw [Link.values, List.forall_mem_append]
    exact ⟨hr.2, hn.2⟩
  · refine .pure fun l hl => ?_
    cases hl

theorem ensures_patternChain (hexpr : Ensures clean expr V) {name : Option String}
    {begin : Nat} :
    Ensures clean (patternChain expr name begin) fun p =>
      p.name = name ∧ p.Formed ∧ ∀ c ∈ p.values, V c := by
  unfold patternChain
  refine (ensures_nodePattern hexpr).bind fun first => ?_
  refine (ensures_link hexpr).many.bind fun chain => ?_
  refine .map .spanFrom fun s _ hchain hfirst => ?_
  refine ⟨rfl, ⟨hfirst.1, fun l hl => (hchain l hl).1⟩, ?_⟩
  rw [Pattern.values, List.forall_mem_append]
  refine ⟨hfirst.2, fun c hc => ?_⟩
  obtain ⟨l, hl, hmem⟩ := List.mem_flatMap.1 hc
  exact (hchain l hl).2 c hmem

theorem ensures_pathName : Ensures clean pathName fun _ => True := by
  unfold pathName
  refine .next .lookAhead fun ahead => ?_
  split
  · refine .next .advance fun _ => ?_
    exact .map .advance fun _ _ => trivial
  · exact .pure trivial

theorem ensures_pattern (hexpr : Ensures clean expr V) :
    Ensures clean (pattern expr) fun p => p.Formed ∧ ∀ c ∈ p.values, V c := by
  unfold pattern
  refine .next .start fun begin => ?_
  refine ensures_pathName.next fun name => ?_
  exact (ensures_patternChain hexpr).mono fun p hp => hp.2

theorem ensures_patternList (hexpr : Ensures clean expr V) :
    Ensures clean (patternList expr) fun ps =>
      ps ≠ [] ∧ ∀ p ∈ ps, p.Formed ∧ ∀ c ∈ p.values, V c :=
  (ensures_pattern hexpr).commaSeparated

end Cypher.Grammar
