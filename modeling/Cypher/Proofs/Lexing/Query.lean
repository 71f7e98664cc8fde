import Cypher.Proofs.Lexing.Expression

/-!
# Queries are written legibly

A clause starts with a reserved word of its own, so it is written legibly
behind every other, with one exception. A clause can end with a label that
spells `STARTS` or `ENDS`, and a `WITH` behind it is then taken for a part
of an operator.
-/

namespace Cypher

open Edge (Opens Ends Closes Parts AnyWord NoWord)
open Glyph

variable {S : Keyword → Prop}

/-! ## Items -/

/-- Only these words lead an operator where the item ends with labels. -/
def SetItem.LabelsIn (S : Keyword → Prop) : SetItem → Prop
  | .labels _ names _ => ∀ n ∈ names, LeadsIn S n
  | _ => True

def RemoveItem.LabelsIn (S : Keyword → Prop) : RemoveItem → Prop
  | .labels _ names _ => ∀ n ∈ names, LeadsIn S n
  | _ => True

/-- Only these words lead an operator where the clause ends with a label or
with the name of a procedure. -/
def Clause.LabelsIn (S : Keyword → Prop) : Clause → Prop
  | .merge _ actions _ => ∀ a ∈ actions, ∀ i ∈ a.items, i.LabelsIn S
  | .set items _ => ∀ i ∈ items, i.LabelsIn S
  | .remove items _ => ∀ i ∈ items, i.LabelsIn S
  | .call procedure _ _ _ _ => ∀ n, procedure = [n] → LeadsIn S n
  | _ => True

theorem legible_variable (n : String) :
    Glyph.Legible (· = .clear) [.name n] (Closes S) :=
  (legible_name n (S := NoWord)).conseq (fun _ => free_of_clear) fun _ => closes_of_word

theorem legible_propertyPath (p : PropertyPath) :
    Glyph.Legible (· = .clear) p.glyphs (Closes S) :=
  (legible_variable p.name).cons ((legible_dot.pre fun _ he => he.toEnds (S := NoWord)).cons
    ((legible_symbol_of_dot p.key).post fun _ => closes_of_word))

theorem legible_assignment (how : Assignment) :
    Glyph.Legible (Closes NoWord) how.glyphs (· = .clear) := by
  cases how <;> exact (legible_space.pre fun _ he => he.toEnds).cons
    ((legible_operator _).cons legible_clearSpace)

theorem legible_setItem {i : SetItem} (hlabels : i.LabelsIn S)
    (h : ∀ v ∈ i.value?, v.Legible S) : Glyph.Legible (· = .clear) i.glyphs (Closes S) := by
  cases i with
  | property target how value s =>
    exact ((legible_propertyPath target).append (legible_assignment how)).append
      (h value rfl).clear
  | «variable» n how value s =>
    exact (legible_variable n).append ((legible_assignment how).append (h value rfl).clear)
  | labels n names s => exact (legible_variable n).append (legible_labels hlabels)

theorem legible_removeItem {i : RemoveItem} (hlabels : i.LabelsIn S) :
    Glyph.Legible (· = .clear) i.glyphs (Closes S) := by
  cases i with
  | property target => exact legible_propertyPath target
  | labels n names s => exact (legible_variable n).append (legible_labels hlabels)

theorem legible_setItems {items : List SetItem} (hlabels : ∀ i ∈ items, i.LabelsIn S)
    (h : ∀ v ∈ items.filterMap SetItem.value?, v.Legible S) :
    Glyph.Legible (· = .clear) (separated (items.map SetItem.glyphs)) (Closes S) := by
  refine legible_separated ?_
  rw [List.forall_mem_map]
  exact fun i hi => legible_setItem (hlabels i hi)
    fun v hv => h v (List.mem_filterMap.2 ⟨i, hi, hv⟩)

theorem legible_action {a : MergeAction} (hlabels : ∀ i ∈ a.items, i.LabelsIn S)
    (h : ∀ v ∈ a.items.filterMap SetItem.value?, v.Legible S) :
    Glyph.Legible (Closes S) a.glyphs (Closes S) := by
  obtain ⟨trigger, items, s⟩ := a
  have hset := legible_after (S := NoWord) (w := .SET) rfl nofun (legible_setItems hlabels h)
  have hevent {w : Keyword} (hw : w.leads = false) :
      Glyph.Legible (· = .clear) [.keyword w] (Ends NoWord) :=
    (legible_keyword (S := NoWord) hw nofun).conseq (fun _ => free_of_clear)
      fun _ he => (closes_of_word he).toEnds
  have hon {w : Keyword} (hw : w.leads = false) :
      Glyph.Legible (Closes S) (after .ON [.keyword w]) (Ends NoWord) :=
    (legible_after rfl (fun v _ => by cases v <;> rfl) (hevent hw)).pre fun _ he => he.toEnds
  cases trigger with
  | onCreate => exact (hon rfl).append hset
  | onMatch => exact (hon rfl).append hset

theorem legible_projection {p : Projection} (h : ∀ v ∈ p.values, v.Legible S) :
    Glyph.Legible (· = .clear) p.glyphs (Closes S) := by
  obtain ⟨distinct, items, s⟩ := p
  have hitems : ∀ run ∈ items.map ProjectionItem.glyphs,
      Glyph.Legible (· = .clear) run (Closes S) := by
    rw [List.forall_mem_map]
    intro i hi
    cases i with
    | everything s => exact legible_star.pre fun _ => opens_of_clear
    | expression value name s =>
      have hvalue := h value (List.mem_filterMap.2 ⟨_, hi, rfl⟩)
      exact hvalue.clear.append legible_named
  have hdistinct : Glyph.Legible (· = .clear)
      (if distinct then [.keyword .DISTINCT, .space] else []) (· = .clear) := by
    cases distinct with
    | false => exact .nil fun _ => id
    | true => exact (legible_lead (S := NoWord) rfl nofun).pre fun _ => free_of_clear
  exact hdistinct.append (legible_separated hitems)

theorem legible_sortItem {i : SortItem} (h : i.key.Legible S) :
    Glyph.Legible (· = .clear) i.glyphs (Closes S) := by
  obtain ⟨key, direction, s⟩ := i
  cases direction with
  | ascending => exact h.clear
  | descending =>
    have hword : Glyph.Legible (Parts S) [.keyword .DESC] (Closes S) :=
      (legible_keyword rfl (fun v _ => by cases v <;> rfl)).conseq (fun _ => .inl)
        fun _ => closes_of_word
    exact h.clear.append ((legible_space.pre fun _ he => he.toEnds).cons hword)

theorem legible_yieldItem (i : YieldItem) :
    Glyph.Legible (· = .clear) i.glyphs (Closes S) :=
  (legible_variable i.field).append legible_named

theorem legible_patterns {ps : List Pattern} (hps : ∀ p ∈ ps, p.Formed)
    (h : ∀ v ∈ ps.flatMap Pattern.values, v.Legible S) :
    Glyph.Legible (· = .clear) (separated (ps.map Pattern.glyphs)) (Closes S) := by
  refine legible_separated ?_
  rw [List.forall_mem_map]
  exact fun p hp => (legible_pattern (hps p hp)
    fun v hv => h v (List.mem_flatMap.2 ⟨p, hp, hv⟩)).post fun _ => closes_of_clear

/-- The arguments of a procedure, with the parentheses around them. -/
theorem legible_arguments (arguments : Option (List Expression)) :
    (∀ v ∈ arguments.getD [], v.Legible S) → Glyph.Legible (Closes S)
      (match arguments with
        | none => []
        | some es =>
          .mark .lparen :: separated (es.map Expression.glyphs) ++ [.mark .rparen])
      (Closes S) := by
  intro h
  cases arguments with
  | none => exact .nil fun _ => id
  | some es =>
    have hes := legible_list h
    rw [glyphsList_eq] at hes
    exact legible_group hes

theorem legible_fields (fields : Option (List YieldItem)) :
    Glyph.Legible (Closes S)
      (match fields with
        | none => []
        | some fs => after .YIELD (separated (fs.map YieldItem.glyphs)))
      (Closes S) := by
  cases fields with
  | none => exact .nil fun _ => id
  | some fs =>
    have hitems : ∀ run ∈ fs.map YieldItem.glyphs,
        Glyph.Legible (· = .clear) run (Closes S) := by
      rw [List.forall_mem_map]
      exact fun i _ => legible_yieldItem i
    exact (legible_after rfl (fun v _ => by cases v <;> rfl)
      (legible_separated hitems)).pre fun _ he => he.toEnds

/-! ## Clauses -/

/-- A clause behind other glyphs is led in by a word of its own. -/
theorem legible_begin {w : Keyword} {gs : List Glyph} {Q : Edge → Prop}
    (h : Glyph.Legible (· = .clear) gs Q) (hleads : w.leads = false) :
    Glyph.Legible (· = .clear) (.keyword w :: .space :: gs) Q :=
  ((legible_lead (S := NoWord) hleads nofun).pre fun _ => free_of_clear).append h

theorem Clause.legible {c : Clause} (hc : c.Formed) (hlabels : c.LabelsIn S)
    (h : ∀ v ∈ c.values, v.Legible S) : Glyph.Legible (· = .clear) c.glyphs (Closes S) := by
  rw [Clause.values, List.forall_mem_append] at h
  obtain ⟨hpatterns, hvalues⟩ := h
  cases c with
  | matchPatterns kind ps filter s =>
    have hmatch := legible_begin (w := .MATCH)
      (legible_patterns hc.2 hpatterns) rfl
    have hfilter := legible_where (o := filter) hvalues
    cases kind with
    | regular => exact hmatch.append hfilter
    | optional => exact (legible_begin hmatch (w := .OPTIONAL) rfl).append hfilter
    | mandatory => exact (legible_begin hmatch (w := .MANDATORY) rfl).append hfilter
  | create ps s => exact legible_begin (legible_patterns hc.2 hpatterns) rfl
  | merge ps actions s =>
    have hactions : Glyph.Legible (Closes S) (actions.flatMap MergeAction.glyphs) (Closes S) :=
      .flatMap fun a ha => legible_action (hlabels a ha)
        fun v hv => hvalues v (List.mem_flatMap.2 ⟨a, ha, hv⟩)
    exact (legible_begin (legible_patterns hc.1.2 hpatterns) rfl).append hactions
  | set items s => exact legible_begin (legible_setItems hlabels hvalues) rfl
  | delete detach targets s =>
    have htargets : ∀ run ∈ targets.map Expression.glyphs,
        Glyph.Legible (· = .clear) run (Closes S) := by
      rw [List.forall_mem_map]
      exact fun e he => (hvalues e he).clear
    have hdelete := legible_begin (w := .DELETE) (legible_separated htargets) rfl
    cases detach with
    | false => exact hdelete
    | true => exact legible_begin hdelete rfl
  | remove items s =>
    have hitems : ∀ run ∈ items.map RemoveItem.glyphs,
        Glyph.Legible (· = .clear) run (Closes S) := by
      rw [List.forall_mem_map]
      exact fun i hi => legible_removeItem (hlabels i hi)
    exact legible_begin (legible_separated hitems) rfl
  | withProjection p filter s =>
    rw [Clause.expressions, List.forall_mem_append] at hvalues
    exact (legible_begin (legible_projection hvalues.1) rfl).append (legible_where hvalues.2)
  | unwind e n s =>
    have he := hvalues e (by simp [Clause.expressions])
    have halias : Glyph.Legible (Ends S) (after .AS [.name n]) (Closes S) :=
      legible_after rfl (fun v _ => by cases v <;> rfl) (legible_variable n)
    exact (legible_begin he.clear rfl).append (halias.pre fun _ he => he.toEnds)
  | returnProjection p s => exact legible_begin (legible_projection hvalues) rfl
  | orderBy items s =>
    have hitems : ∀ run ∈ items.map SortItem.glyphs,
        Glyph.Legible (· = .clear) run (Closes S) := by
      rw [List.forall_mem_map]
      exact fun i hi => legible_sortItem (hvalues i.key (List.mem_map_of_mem hi))
    exact legible_begin (legible_begin (legible_separated hitems) rfl) rfl
  | skip e s => exact legible_begin (hvalues e (by simp [Clause.expressions])).clear rfl
  | limit e s => exact legible_begin (hvalues e (by simp [Clause.expressions])).clear rfl
  | call procedure arguments fields filter s =>
    rw [Clause.expressions, List.forall_mem_append] at hvalues
    have hname := legible_begin (w := .CALL)
      ((legible_dotted hc.1 hlabels).pre fun _ => free_of_clear) rfl
    exact ((hname.append (legible_arguments arguments hvalues.1)).append
      (legible_fields fields)).append (legible_where hvalues.2)

/-- The clause ends with a word that a `WITH` behind it would go on with. -/
def Clause.Unfinished (c : Clause) : Prop :=
  ∃ w : Keyword, w.joins .WITH = true ∧ Edge.clear.run c.glyphs = some (.leading w)

def Clause.isWith : Clause → Bool
  | .withProjection .. => true
  | _ => false

/-- No `WITH` stands behind a clause that ends with a word it would go on
with. -/
def SingleQuery.Parted (q : SingleQuery) : Prop :=
  q.clauses.IsChain fun c d => d.isWith = true → ¬ c.Unfinished

/-- The word a clause starts with leads no operator, and goes on with none
unless it is `WITH`. -/
theorem Clause.glyphs_head (c : Clause) :
    ∃ w gs, c.glyphs = .keyword w :: gs ∧ w.leads = false
      ∧ ((∀ v : Keyword, v.joins w = false) ∨ (w = .WITH ∧ c.isWith = true)) := by
  cases c with
  | matchPatterns kind =>
    cases kind <;> exact ⟨_, _, rfl, rfl, .inl fun v => by cases v <;> rfl⟩
  | delete detach => cases detach <;> exact ⟨_, _, rfl, rfl, .inl fun v => by cases v <;> rfl⟩
  | withProjection p filter s => exact ⟨_, _, rfl, rfl, .inr ⟨rfl, rfl⟩⟩
  | _ => exact ⟨_, _, rfl, rfl, .inl fun v => by cases v <;> rfl⟩

/-- A clause is written behind a space as it is at the start of a text. -/
theorem Clause.run_of_parts {c : Clause} {e : Edge} (he : Parts S e)
    (hwith : c.isWith = true → ∀ w, S w → w.joins .WITH = false) :
    e.run c.glyphs = Edge.clear.run c.glyphs := by
  obtain ⟨w, gs, hgs, hleads, hjoins⟩ := c.glyphs_head
  rcases he with rfl | ⟨v, hv, rfl⟩
  · rfl
  · have hmisleads : v.joins w = false := by
      rcases hjoins with h | ⟨rfl, hc⟩
      · exact h v
      · exact hwith hc v hv
    have hnone : (Edge.parted v).step (.keyword w) = Edge.clear.step (.keyword w) := by
      have hbars (o : Option Char) : o.any (Edge.parted v).bars = o.any Edge.clear.bars := by
        cases o <;> rfl
      unfold Edge.step
      rw [hbars, show (Edge.parted v).misleads (.keyword w) = false from hmisleads]
      rfl
    rw [hgs, Edge.run, Edge.run, hnone]

/-- The clauses of a single query are written legibly behind one another. -/
theorem legible_clauses {cs : List Clause} (hcs : cs ≠ [])
    (h : ∀ c ∈ cs, Glyph.Legible (· = .clear) c.glyphs (Closes AnyWord))
    (hchain : cs.IsChain fun c d => d.isWith = true → ¬ c.Unfinished)
    (hwith : ∀ c ∈ cs.head?, c.isWith = true → ∀ w, S w → w.joins .WITH = false) :
    Glyph.Legible (Parts S) (joined [.space] (cs.map Clause.glyphs)) (Closes AnyWord) := by
  induction cs generalizing S with
  | nil => exact absurd rfl hcs
  | cons c cs ih =>
    rw [List.forall_mem_cons] at h
    -- The words that the clause itself leaves to what follows it.
    have hc : Glyph.Legible (Parts S) c.glyphs
        (Closes fun w => Edge.clear.run c.glyphs = some (.leading w)) := by
      refine ⟨h.1.written, fun e he => ?_⟩
      obtain ⟨e', hrun, he'⟩ := h.1.run .clear rfl
      refine ⟨e', (Clause.run_of_parts he (hwith c rfl)).trans hrun,
        ⟨⟨he'.undotted, he'.unparted, ?_⟩, he'.slash⟩⟩
      rintro w rfl
      exact hrun
    cases cs with
    | nil => exact hc.post fun _ => Closes.any
    | cons d cs =>
      rw [List.isChain_cons_cons] at hchain
      refine (hc.append (legible_space.pre fun _ he => he.toEnds)).append
        (ih nofun h.2 hchain.2 ?_)
      intro d' hd' hwith' w hw
      cases hd'
      have hunfinished := hchain.1 hwith'
      cases hjoins : w.joins .WITH with
      | false => rfl
      | true => exact absurd ⟨w, hjoins, hw⟩ hunfinished

theorem legible_part {q : SingleQuery} (hne : q.clauses ≠ [])
    (h : ∀ c ∈ q.clauses, Glyph.Legible (· = .clear) c.glyphs (Closes AnyWord))
    (hparted : q.Parted) : Glyph.Legible (· = .clear) q.glyphs (Closes AnyWord) :=
  (legible_clauses (S := NoWord) hne h hparted fun _ _ _ _ hw => hw.elim).pre fun _ => .inl

theorem legible_body {b : QueryBody} (hne : ∀ p ∈ b.parts, p.clauses ≠ [])
    (h : ∀ p ∈ b.parts, ∀ c ∈ p.clauses,
      Glyph.Legible (· = .clear) c.glyphs (Closes AnyWord))
    (hparted : ∀ p ∈ b.parts, p.Parted) :
    Glyph.Legible (· = .clear) b.glyphs (Closes AnyWord) := by
  induction b with
  | single p =>
    have hp := List.mem_singleton_self p
    exact legible_part (hne p hp) (h p hp) (hparted p hp)
  | union all left right s ih =>
    rw [QueryBody.parts, List.forall_mem_append, List.forall_mem_singleton] at hne h hparted
    have hleft := ih hne.1 h.1 hparted.1
    have hright := legible_part hne.2 h.2 hparted.2
    have hall : Glyph.Legible (· = .clear) ((if all then [.keyword .ALL, .space] else [])
        ++ right.glyphs) (Closes AnyWord) := by
      cases all with
      | false => exact hright
      | true => exact legible_begin hright rfl
    have hunion := legible_after (S := AnyWord) (w := .UNION) rfl
      (fun v _ => by cases v <;> rfl) hall
    have hglyphs : (QueryBody.union all left right s).glyphs
        = left.glyphs ++ after .UNION ((if all then [.keyword .ALL, .space] else [])
          ++ right.glyphs) := by
      simp only [QueryBody.glyphs, after, List.append_assoc, List.cons_append]
    rw [hglyphs]
    exact hleft.append (hunion.pre fun _ he => he.toEnds)

/-- A well-formed query is written legibly, unless a `WITH` goes on with the
clause before it. -/
theorem Query.legible {q : Query} (hq : q.Formed)
    (h : ∀ c ∈ q.clauses, c.Formed ∧ ∀ e ∈ c.values, e.Everywhere Expression.Formed)
    (hparted : ∀ p ∈ q.body.parts, p.Parted) :
    Glyph.Legible (· = .clear) q.glyphs (Closes AnyWord) := by
  obtain ⟨version, body, s⟩ := q
  have hany (e : Expression) : e.LabelsIn AnyWord := by
    cases e <;> first | trivial | exact fun n _ => leadsIn_any n
  have hitem (i : SetItem) : i.LabelsIn AnyWord := by
    cases i <;> first | trivial | exact fun n _ => leadsIn_any n
  have hclause (c : Clause) : c.LabelsIn AnyWord := by
    cases c with
    | merge ps actions s => exact fun _ _ i _ => hitem i
    | set items s => exact fun i _ => hitem i
    | remove items s =>
      intro i _
      cases i <;> first | trivial | exact fun n _ => leadsIn_any n
    | call procedure => exact fun n _ => leadsIn_any n
    | _ => trivial
  have hbody : Glyph.Legible (· = .clear) body.glyphs (Closes AnyWord) := by
    refine legible_body hq.parts (fun p hp c hc => ?_) hparted
    obtain ⟨hformed, hvalues⟩ := h c (List.mem_flatMap_of_mem hp hc)
    exact c.legible hformed (hclause c) fun v hv =>
      Expression.legible ((hvalues v hv).mono fun e he => ⟨he, hany e⟩)
  cases version with
  | none => exact hbody
  | some v =>
    have hnumber : Glyph.Legible (· = .clear) [.number v] (Ends NoWord) :=
      (legible_number (S := NoWord) (hq.version v rfl)).conseq (fun _ => free_of_clear)
        fun _ he => (he ▸ Edge.closes_number : Closes NoWord _).toEnds
    exact legible_begin (hnumber.cons (legible_clearSpace.cons hbody)) rfl

end Cypher
