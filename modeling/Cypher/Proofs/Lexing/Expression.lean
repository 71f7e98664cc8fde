import Cypher.Proofs.Lexing.Legible
import Cypher.Proofs.Tree.Glyphs

/-!
# Trees are written legibly

Nothing that a well-formed expression or path is written with fuses with
what stands next to it, and only a label at its very end can lead to an
operator of several words.
-/

namespace Cypher

open Edge (Opens Ends Closes Parts AnyWord NoWord)
open Glyph

variable {S : Keyword → Prop}

/-- Only these words lead an operator where the node ends with labels. -/
def Expression.LabelsIn (S : Keyword → Prop) : Expression → Prop
  | .labelCheck _ labels _ => ∀ n ∈ labels, LeadsIn S n
  | _ => True

theorem opens_of_clear {e : Edge} (h : e = .clear) : Opens e := .inl h

theorem leadsIn_any (n : String) : LeadsIn AnyWord n := fun _ _ _ => trivial

/-- The expression is written legibly wherever an operand may stand. -/
def Expression.Legible (S : Keyword → Prop) (e : Expression) : Prop :=
  Glyph.Legible Opens e.glyphs (Closes S)

section

variable {e : Expression}

theorem Expression.Legible.clear (h : e.Legible S) :
    Glyph.Legible (· = .clear) e.glyphs (Closes S) :=
  h.pre fun _ => opens_of_clear

/-! ## Optional parts -/

theorem legible_where {o : Option Expression} (h : ∀ e ∈ o.toList, e.Legible S) :
    Glyph.Legible (Closes S) (glyphsWhere o) (Closes S) := by
  cases o with
  | none => exact .nil fun _ => id
  | some e =>
    have he := (h e (by simp)).clear
    exact (legible_after rfl (fun v _ => by cases v <;> rfl) he).pre fun _ he => he.toEnds

theorem legible_else {o : Option Expression} (h : ∀ e ∈ o.toList, e.Legible S) :
    Glyph.Legible (Closes S) (glyphsElse o) (Closes S) := by
  cases o with
  | none => exact .nil fun _ => id
  | some e =>
    have he := (h e (by simp)).clear
    exact (legible_after rfl (fun v _ => by cases v <;> rfl) he).pre fun _ he => he.toEnds

/-- The bar between a source and what is made of it. -/
theorem legible_bar :
    Glyph.Legible (Closes S) [.space, .operator .pipe, .space] (· = .clear) :=
  (legible_space.pre fun _ he => he.toEnds).cons ((legible_operator .pipe).cons legible_clearSpace)

theorem legible_behindBar {o : Option Expression} (h : ∀ e ∈ o.toList, e.Legible S) :
    Glyph.Legible (Closes S) (glyphsBar o) (Closes S) := by
  cases o with
  | none => exact .nil fun _ => id
  | some e => exact legible_bar.append (h e (by simp)).clear

theorem legible_option {o : Option Expression} (h : ∀ e ∈ o.toList, e.Legible S)
    {P : Edge → Prop} (hopens : ∀ e, P e → Opens e) (hcloses : ∀ e, P e → Closes S e) :
    Glyph.Legible P (glyphsOption o) (Closes S) := by
  cases o with
  | none => exact .nil hcloses
  | some e => exact (h e (by simp)).pre hopens

/-! ## Maps -/

theorem legible_entry {e : MapEntry} (h : e.value.Legible S) :
    Glyph.Legible (· = .clear) e.glyphs (Closes S) := by
  obtain ⟨key, value, s⟩ := e
  have hkey : Glyph.Legible (· = .clear) [.symbol key] (Closes AnyWord) :=
    (legible_symbol (leadsIn_any key)).pre fun _ => free_of_clear
  exact hkey.append ((legible_mark (m := .colon) nofun).cons
    ((legible_clearSpace.pre fun _ => ends_of_clear).cons h.clear))

theorem legible_map {es : List MapEntry} (h : ∀ v ∈ es.map MapEntry.value, v.Legible S)
    {P : Edge → Prop} :
    Glyph.Legible P (.mark .lbrace :: separated (glyphsEntries es) ++ [.mark .rbrace])
      (· = .clear) := by
  have hitems : ∀ run ∈ es.map MapEntry.glyphs,
      Glyph.Legible (· = .clear) run (Closes S) := by
    rw [List.forall_mem_map]
    exact fun e he => legible_entry (h e.value (List.mem_map_of_mem he))
  rw [glyphsEntries_eq]
  exact ((legible_mark (m := .lbrace) nofun).append (legible_separated hitems)).append
    (legible_mark (m := .rbrace) nofun)

theorem legible_selector {s : MapSelector} (h : ∀ v ∈ s.values, v.Legible S) :
    Glyph.Legible (· = .clear) s.glyphs (Closes S) := by
  have hdot : Glyph.Legible (· = .clear) [.mark .dot] (· = .dot) :=
    (legible_dot (S := S)).pre fun _ => ends_of_clear
  cases s with
  | property key s =>
    exact hdot.append ((legible_symbol_of_dot key).post fun _ => closes_of_word)
  | everything s =>
    refine hdot.append (.single trivial ?_ ?_ ?_)
    · rintro e rfl
      rfl
    · rintro e rfl
      rfl
    · rintro e rfl
      exact Edge.closes_star
  | entry e =>
    rw [MapSelector.glyphs]
    exact legible_entry (h e.value List.mem_cons_self)
  | «variable» n s =>
    exact (legible_name n (S := S)).conseq (fun _ => free_of_clear) fun _ => closes_of_word

end

/-! ## Paths -/

theorem legible_properties {p : Properties} (hp : p.Formed)
    (h : ∀ v ∈ p.values, v.Legible S) :
    Glyph.Legible (Free AnyWord) p.glyphs (Ends AnyWord) := by
  cases p with
  | map es s =>
    rw [Properties.glyphs]
    exact (legible_map h).post fun _ => ends_of_clear
  | parameter n s => exact (legible_parameter hp).post fun _ he => (closes_of_word he).toEnds

theorem legible_propertiesOption {p : Option Properties} (hp : ∀ q ∈ p, q.Formed)
    (h : ∀ v ∈ p.toList.flatMap Properties.values, v.Legible S)
    (hne : glyphsProperties p ≠ []) :
    Glyph.Legible (Free AnyWord) (glyphsProperties p) (Ends AnyWord) := by
  cases p with
  | none => exact absurd rfl hne
  | some p => exact legible_properties (hp p rfl) (by simpa using h)

theorem legible_nameOption (n : Option String) :
    Glyph.Legible (· = .clear) (n.toList.map Glyph.name) (Closes AnyWord) := by
  cases n with
  | none => exact .nil fun _ => closes_of_clear
  | some n =>
    exact (legible_name n (S := NoWord)).conseq (fun _ => free_of_clear) fun _ => closes_of_word

theorem legible_node {n : NodePattern} (hn : n.Formed) (h : ∀ v ∈ n.values, v.Legible S)
    {P : Edge → Prop} : Glyph.Legible P n.glyphs (· = .clear) := by
  obtain ⟨name, labels, properties, s⟩ := n
  have hlabels : Glyph.Legible (· = .clear)
      (name.toList.map Glyph.name ++ Glyph.labels labels) (Closes AnyWord) :=
    (legible_nameOption name).append (legible_labels fun n _ => leadsIn_any n)
  have hinner := legible_spaced (hlabels.post fun _ he => he.toEnds)
    (legible_propertiesOption hn h)
  exact ((legible_mark (m := .lparen) nofun).append hinner).append
    (legible_mark (m := .rparen) nofun)

theorem legible_types (types : List String) :
    Glyph.Legible (Closes AnyWord) (typeGlyphs types) (Closes AnyWord) := by
  cases types with
  | nil => exact .nil fun _ => id
  | cons t types =>
    have hfirst : Glyph.Legible (Closes AnyWord) [.mark .colon, .symbol t] (Closes AnyWord) :=
      (legible_mark (m := .colon) nofun).cons
        ((legible_symbol (leadsIn_any t)).pre fun _ => free_of_clear)
    refine hfirst.append (.flatMap fun t _ => ?_)
    exact (legible_sign (.inr (.inl rfl))).cons
      ((legible_symbol (leadsIn_any t)).pre fun _ he => .inr ⟨_, he⟩)

theorem digits_toString (n : Nat) : Digits (toString n).toList := by
  rw [Nat.toString_eq_repr, Nat.toList_repr]
  exact ⟨Nat.toDigits_ne_nil,
    fun c hc => Nat.isDigit_of_mem_toDigits (by decide) (by decide) hc⟩

theorem legible_hops (r : HopRange) :
    Glyph.Legible (Closes AnyWord) r.glyphs (Ends AnyWord) := by
  have hbound (n : Nat) {op : Operator} :
      Glyph.Legible (· = .sign op) [.number (toString n)] (Closes AnyWord) :=
    (legible_number (S := NoWord) (.inl (digits_toString n))).conseq
      (fun _ he => .inr ⟨_, he⟩) fun _ he => he ▸ Edge.closes_number
  have hstar : Glyph.Legible (Closes AnyWord) [.operator .star] (· = .sign .star) :=
    legible_sign (.inr (.inr rfl))
  have hdots : Glyph.Legible (Closes AnyWord) [.operator .dotDot] (· = .sign .dotDot) :=
    legible_sign (.inl rfl)
  have hends {op : Operator} {e : Edge} (he : e = .sign op) : Ends AnyWord e :=
    he ▸ Edge.ends_sign op
  obtain ⟨low, high⟩ := r
  match low, high with
  | none, none => exact hstar.post fun _ => hends
  | some low, none =>
    exact hstar.append ((hbound low).append (hdots.post fun _ => hends))
  | none, some high =>
    have hstarCloses : ∀ e : Edge, e = .sign .star → Closes AnyWord e :=
      fun e he => he ▸ Edge.closes_star
    exact hstar.append ((hdots.pre hstarCloses).append
      ((hbound high).post fun _ he => he.toEnds))
  | some low, some high =>
    unfold HopRange.glyphs
    simp only
    split
    · exact hstar.append ((hbound low).post fun _ he => he.toEnds)
    · exact hstar.append ((hbound low).append (hdots.append
        ((hbound high).post fun _ he => he.toEnds)))

/-- The brackets of a relationship that has nothing in them are left out. -/
theorem legible_bracketed {gs : List Glyph}
    (h : Glyph.Legible (· = .clear) gs (Ends AnyWord)) :
    Glyph.Legible (· = .sign .minus) (bracketed gs)
      (fun e => e = .clear ∨ e = .sign .minus) := by
  unfold bracketed
  split
  · exact .nil fun _ => .inr
  · exact ((legible_mark (m := .lbracket) nofun).append h).append
      ((legible_mark (m := .rbracket) nofun).post fun _ => .inl)

theorem legible_ends (d : Direction) :
    Glyph.Legible (· = .clear) d.ends.1 (· = .sign .minus)
      ∧ Glyph.Legible (fun e => e = .clear ∨ e = .sign .minus) d.ends.2 (fun _ => True) := by
  constructor
  · refine ⟨by cases d <;> simp [Direction.ends, Glyph.Written], ?_⟩
    rintro e rfl
    cases d <;> exact ⟨_, rfl, rfl⟩
  · refine ⟨by cases d <;> simp [Direction.ends, Glyph.Written], ?_⟩
    rintro e (rfl | rfl) <;> cases d <;> exact ⟨_, rfl, trivial⟩

theorem legible_relationship {r : RelationshipPattern} (hr : r.Formed)
    (h : ∀ v ∈ r.values, v.Legible S) :
    Glyph.Legible (· = .clear) r.glyphs (fun _ => True) := by
  obtain ⟨direction, name, types, hops, properties, s⟩ := r
  have hhops : Glyph.Legible (Closes AnyWord) (hops.toList.flatMap HopRange.glyphs)
      (Ends AnyWord) := by
    cases hops with
    | none => exact .nil fun _ he => he.toEnds
    | some r =>
      simpa using legible_hops r
  have hleft := ((legible_nameOption name).append (legible_types types)).append hhops
  have hinner := legible_spaced hleft (legible_propertiesOption hr.1 h)
  exact ((legible_ends direction).1.append (legible_bracketed hinner)).append
    (legible_ends direction).2

theorem legible_links {ls : List Link} (hls : ∀ l ∈ ls, l.Formed)
    (h : ∀ v ∈ ls.flatMap Link.values, v.Legible S) :
    Glyph.Legible (· = .clear) (glyphsLinks ls) (· = .clear) := by
  rw [glyphsLinks_eq]
  refine .flatMap fun l hl => ?_
  have hl' : ∀ v ∈ l.values, v.Legible S :=
    fun v hv => h v (List.mem_flatMap.2 ⟨l, hl, hv⟩)
  have hformed := hls l hl
  obtain ⟨r, n⟩ := l
  rw [Link.values, List.forall_mem_append] at hl'
  exact (legible_relationship hformed.1 hl'.1).append (legible_node hformed.2 hl'.2)

theorem legible_pattern {p : Pattern} (hp : p.Formed) (h : ∀ v ∈ p.values, v.Legible S) :
    Glyph.Legible (· = .clear) p.glyphs (· = .clear) := by
  obtain ⟨name, start, chain, s⟩ := p
  rw [Pattern.values, List.forall_mem_append] at h
  have hpath {P : Edge → Prop} :
      Glyph.Legible P (start.glyphs ++ glyphsLinks chain) (· = .clear) :=
    (legible_node hp.1 h.1).append (legible_links hp.2 h.2)
  cases name with
  | none => exact hpath
  | some n =>
    have hname : Glyph.Legible (· = .clear) [.name n] (Ends NoWord) :=
      (legible_name n (S := NoWord)).conseq (fun _ => free_of_clear)
        fun _ he => (closes_of_word he).toEnds
    exact hname.cons (legible_space.cons ((legible_operator .eq).cons
      (legible_space.cons hpath)))

/-- A path without a name starts with a parenthesis. -/
theorem legible_predicate {p : Pattern} (hp : p.Formed) (hname : p.name = none)
    (h : ∀ v ∈ p.values, v.Legible S) {P : Edge → Prop} :
    Glyph.Legible P p.glyphs (· = .clear) := by
  obtain ⟨name, start, chain, s⟩ := p
  cases hname
  rw [Pattern.values, List.forall_mem_append] at h
  exact (legible_node hp.1 h.1).append (legible_links hp.2 h.2)

/-! ## Expressions -/

theorem legible_literal {v : Literal} (hv : v.Formed) :
    Glyph.Legible Opens [v.glyph] (Closes S) := by
  have hopens {P : Edge → Prop} {gs : List Glyph} (h : Glyph.Legible (Free NoWord) gs P) :
      Glyph.Legible Opens gs P := h.pre fun _ => free_of_opens
  cases v with
  | integer digits =>
    exact (hopens (legible_number (.inl hv))).post fun _ he => he ▸ Edge.closes_number
  | float digits =>
    exact (hopens (legible_number (.inr hv))).post fun _ he => he ▸ Edge.closes_number
  | string value => exact (hopens (legible_string value)).post fun _ => closes_of_clear
  | boolean b =>
    cases b <;> exact (hopens (legible_keyword rfl nofun)).post
      fun _ => closes_of_word
  | null =>
    exact (hopens (legible_keyword rfl nofun)).post
      fun _ => closes_of_word

theorem legible_branches {bs : List CaseBranch}
    (h : ∀ v ∈ bs.flatMap CaseBranch.values, v.Legible S) :
    Glyph.Legible (Closes S) (glyphsBranches bs) (Closes S) := by
  rw [glyphsBranches_eq]
  refine .flatMap fun b hb => ?_
  have hb' : ∀ v ∈ b.values, v.Legible S := fun v hv => h v (List.mem_flatMap.2 ⟨b, hb, hv⟩)
  obtain ⟨condition, result, s⟩ := b
  have hcondition := (hb' condition (by simp [CaseBranch.values])).clear
  have hresult := (hb' result (by simp [CaseBranch.values])).clear
  have hwhen : Glyph.Legible (Closes S) (after .WHEN condition.glyphs) (Closes S) :=
    (legible_after rfl (fun v _ => by cases v <;> rfl) hcondition).pre fun _ he => he.toEnds
  have hthen : Glyph.Legible (Closes S) (after .THEN result.glyphs) (Closes S) :=
    (legible_after rfl (fun v _ => by cases v <;> rfl) hresult).pre fun _ he => he.toEnds
  exact hwhen.append hthen

theorem legible_list {es : List Expression} (h : ∀ v ∈ es, v.Legible S) :
    Glyph.Legible (· = .clear) (separated (glyphsList es)) (Closes S) := by
  rw [glyphsList_eq]
  refine legible_separated ?_
  rw [List.forall_mem_map]
  exact fun e he => (h e he).clear

theorem legible_infixOperator (op : InfixOperator) :
    Glyph.Legible (Parts S) [ofInfix op] (Ends NoWord) := by
  have hword {w : Keyword} (hleads : w.leads = false)
      (hjoins : ∀ v, S v → v.joins w = false) :
      Glyph.Legible (Parts S) [.keyword w] (Ends NoWord) :=
    (legible_keyword hleads hjoins).conseq (fun _ => .inl)
      fun _ he => (closes_of_word he).toEnds
  cases op with
  | or | xor | and | membership | contains => exact hword rfl (fun v _ => by cases v <;> rfl)
  | _ => exact legible_operator _

/-- What stands in parentheses may stand anywhere. -/
theorem legible_group {gs : List Glyph} {P Q : Edge → Prop}
    (h : Glyph.Legible (· = .clear) gs Q) :
    Glyph.Legible P (.mark .lparen :: gs ++ [.mark .rparen]) (Closes S) :=
  ((legible_mark (m := .lparen) nofun).append h).append
    ((legible_mark (m := .rparen) nofun).post fun _ => closes_of_clear)

/-- Every well-formed expression is written legibly. -/
theorem Expression.legible {e : Expression}
    (h : e.Everywhere fun e => e.Formed ∧ e.LabelsIn S) : e.Legible S := by
  induction h with
  | @intro e self _ ih =>
    obtain ⟨hformed, hlabels⟩ := self
    have hspace : Glyph.Legible (Closes S) [.space] (Parts S) :=
      legible_space.pre fun _ he => he.toEnds
    have hend {P : Edge → Prop} {m : Punctuation} (hm : m ≠ .dot) :
        Glyph.Legible P [.mark m] (Closes S) :=
      (legible_mark hm).post fun _ => closes_of_clear
    unfold Expression.Legible
    cases e with
    | literal v s => exact legible_literal hformed
    | «variable» n s =>
      exact (legible_name n (S := NoWord)).conseq (fun _ => free_of_opens) fun _ => closes_of_word
    | parameter n s =>
      exact (legible_parameter hformed (S := NoWord)).conseq (fun _ => free_of_opens)
        fun _ => closes_of_word
    | property t k s =>
      have ht := ih t (by simp [children])
      exact ht.append ((legible_dot.pre fun _ he => he.toEnds).cons
        ((legible_symbol_of_dot k).post fun _ => closes_of_word))
    | index t i s =>
      have ht := ih t (by simp [children])
      have hi := (ih i (by simp [children])).clear
      exact (ht.append ((legible_mark (m := .lbracket) (by decide)).append hi)).append (hend (by decide))
    | slice t low high s =>
      have ht := ih t (by simp [children])
      have hlow : Glyph.Legible (· = .clear) (glyphsOption low) (Closes S) :=
        legible_option (fun v hv => ih v (by simp [children, Option.mem_toList.1 hv]))
          (fun _ => opens_of_clear) fun _ => closes_of_clear
      have hhigh : Glyph.Legible (· = .sign .dotDot) (glyphsOption high)
          (fun _ => True) := by
        cases high with
        | none => exact .nil fun _ _ => trivial
        | some e =>
          exact (ih e (by simp [children])).conseq (fun _ he => .inr (.inr he))
            fun _ _ => trivial
      have hdots : Glyph.Legible (Closes S) [.operator .dotDot] (· = .sign .dotDot) :=
        legible_sign (.inl rfl)
      exact ((ht.append ((legible_mark (m := .lbracket) (by decide)).append hlow)).append
        (hdots.append hhigh)).append (hend (by decide))
    | list es s =>
      exact ((legible_mark (m := .lbracket) (by decide)).append (legible_list ih)).append (hend (by decide))
    | listComprehension n t filter projection s =>
      have ht := (ih t (by simp [children])).clear
      have hname : Glyph.Legible (· = .clear) [.name n] (Ends NoWord) :=
        (legible_name n (S := NoWord)).conseq (fun _ => free_of_clear)
          fun _ he => (closes_of_word he).toEnds
      have hsource := hname.append (legible_after (w := .IN) rfl (by simp) ht)
      have hfilter := legible_where (o := filter)
        fun v hv => ih v (by simp [children, Option.mem_toList.1 hv])
      have hbar := legible_behindBar (o := projection)
        fun v hv => ih v (by simp [children, Option.mem_toList.1 hv])
      exact ((((legible_mark (m := .lbracket) (by decide)).append hsource).append hfilter).append
        hbar).append (hend (by decide))
    | patternComprehension p filter t s =>
      have hp := legible_pattern hformed fun v hv => ih v (by simp [children, hv])
      have ht := (ih t (by simp [children])).clear
      have hfilter := legible_where (o := filter)
        fun v hv => ih v (by simp [children, Option.mem_toList.1 hv])
      exact (((((legible_mark (m := .lbracket) (by decide)).append hp).append
        (hfilter.pre fun _ => closes_of_clear)).append legible_bar).append ht).append (hend (by decide))
    | patternPredicate p =>
      exact (legible_predicate hformed.1 hformed.2.1 ih).post fun _ => closes_of_clear
    | map es s => exact (legible_map ih).post fun _ => closes_of_clear
    | mapProjection n selectors s =>
      have hname : Glyph.Legible Opens [.name n] (Ends NoWord) :=
        (legible_name n (S := NoWord)).conseq (fun _ => free_of_opens)
          fun _ he => (closes_of_word he).toEnds
      have hselectors : ∀ run ∈ selectors.map MapSelector.glyphs,
          Glyph.Legible (· = .clear) run (Closes S) := by
        rw [List.forall_mem_map]
        exact fun s hs => legible_selector fun v hv => ih v (List.mem_flatMap.2 ⟨s, hs, hv⟩)
      show Glyph.Legible Opens (.name n :: .space :: .mark .lbrace
        :: separated (glyphsSelectors selectors) ++ [.mark .rbrace]) (Closes S)
      rw [glyphsSelectors_eq]
      exact (hname.cons (legible_space.cons ((legible_mark (m := .lbrace) (by decide)).cons
        (legible_separated hselectors)))).append (hend (by decide))
    | call name arguments s =>
      have hname := (legible_dotted hformed fun n _ => leadsIn_any n).pre
        fun _ => free_of_opens
      exact (hname.append ((legible_mark (m := .lparen) (by decide)).append (legible_list ih))).append
        (hend (by decide))
    | «case» operand branches otherwise s =>
      have hcase : Glyph.Legible Opens [.keyword .CASE] (· = .word) :=
        (legible_keyword (S := NoWord) rfl (by simp)).pre fun _ => free_of_opens
      have hoperand : Glyph.Legible (· = .word) (glyphsSpaced operand) (Closes S) := by
        cases operand with
        | none => exact .nil fun _ => closes_of_word
        | some t =>
          exact (legible_clearSpace.pre fun _ he => (closes_of_word he).toEnds).cons
            (ih t (by simp [children])).clear
      have hbranches : Glyph.Legible (Closes S) (glyphsBranches branches) (Closes S) :=
        legible_branches fun v hv => ih v (by
          simp only [children, List.mem_append]
          exact .inr (.inl hv))
      have helse := legible_else (o := otherwise)
        fun v hv => ih v (by simp [children, Option.mem_toList.1 hv])
      have hfinish : Glyph.Legible (Parts S) [.keyword .END] (Closes S) :=
        (legible_keyword rfl (fun v _ => by cases v <;> rfl)).conseq (fun _ => .inl)
          fun _ => closes_of_word
      exact ((hcase.append hoperand).append hbranches |>.append helse).append
        (hspace.append hfinish)
    | prefixed op t s =>
      have ht := ih t (by simp [children])
      cases op with
      | negate => exact legible_minus.cons (ht.pre fun _ he => .inr (.inl he))
      | distinct =>
        have hdistinct : Glyph.Legible Opens [.keyword .DISTINCT, .space] (· = .clear) :=
          (legible_lead (S := NoWord) rfl (by simp)).pre fun _ => free_of_opens
        exact hdistinct.append ht.clear
      | not =>
        have hnot : Glyph.Legible (· = .clear) [.keyword .NOT, .space] (· = .clear) :=
          (legible_lead (S := NoWord) rfl (by simp)).pre fun _ => free_of_clear
        exact legible_group (hnot.append ht.clear)
    | infixed op l r s =>
      have hl := (ih l (by simp [children])).clear
      have hr := (ih r (by simp [children])).clear
      exact legible_group (hl.append (hspace.append
        ((legible_infixOperator op).append (legible_clearSpace.append hr))))
    | nullCheck negated t s =>
      have ht := (ih t (by simp [children])).clear
      have hcheck := ht.append (hspace.append
        (legible_operator (if negated then .isNotNull else .isNull)))
      show Glyph.Legible Opens (.mark .lparen :: t.glyphs
        ++ [.space, .operator (if negated then .isNotNull else .isNull), .mark .rparen]) _
      simpa using legible_group hcheck
    | labelCheck t labels s =>
      have ht := ih t (by simp [children])
      exact ht.append (legible_labels hlabels)
    | star s => exact legible_star
    | hole s => exact hformed.elim

end Cypher
