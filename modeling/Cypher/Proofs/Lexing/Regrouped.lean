import Cypher.Proofs.Lexing.Order
import Cypher.Proofs.Lexing.Respaced
import Cypher.Proofs.Tree.Respelled
import Cypher.Token.Stream

/-!
# Operators of several words, however they are spaced

The longest lexeme wins, so two words never touch: where a text holds
tokens and separators only, white space parts them. The words of an
operator are therefore put together whatever the space between them, and
two layouts of the same lexemes make the same tokens.
-/

namespace Cypher

/-- Two tokens of one kind; the letters of a reserved word may differ in
case. -/
structure Token.Respelled (t t' : Token) : Prop where
  kind : t.kind = t'.kind
  text : t.kind.isKeyword = true → upper t.text = upper t'.text

namespace Lexeme

/-- The lexeme is a token or a separator. -/
def Bare (l : Lexeme) : Prop := l.form = .separator ∨ l.form.isToken = true

theorem exists_token? {l : Lexeme} (h : l.form.isToken = true) :
    ∃ k, l.kind? = some k ∧ l.token? = some ⟨k, l.span, l.line, String.ofList l.text⟩ := by
  have hkind : ∃ k, l.kind? = some k := by
    unfold kind?
    cases hform : l.form with
    | separator | lineComment | blockComment | illegal =>
      rw [hform] at h
      cases h
    | word =>
      dsimp only
      split <;> exact ⟨_, rfl⟩
    | _ => exact ⟨_, rfl⟩
  obtain ⟨k, hk⟩ := hkind
  exact ⟨k, hk, by rw [token?, hk]; rfl⟩

theorem token?_separator {l : Lexeme} (h : l.form = .separator) : l.token? = none := by
  unfold token? kind?
  rw [h]
  rfl

/-- Only a word is read as a reserved word. -/
theorem form_of_isKeyword {l : Lexeme} {k : Token.Kind} (h : l.kind? = some k)
    (hk : k.isKeyword = true) : l.form = .word := by
  unfold kind? at h
  cases hform : l.form with
  | word => rfl
  | separator | lineComment | blockComment | illegal =>
    rw [hform] at h
    cases h
  | _ =>
    rw [hform] at h
    cases h
    cases hk

/-- Another spelling makes a token of the same kind. -/
theorem token?_respells {l l' : Lexeme} (hform : l'.form = l.form) (h : l.Respells l'.text)
    (htoken : l.form.isToken = true) :
    ∃ t t', l.token? = some t ∧ l'.token? = some t' ∧ t.Respelled t' := by
  obtain ⟨k, hk, ht⟩ := exists_token? htoken
  obtain ⟨k', hk', ht'⟩ := exists_token? (l := l') (by rw [hform]; exact htoken)
  refine ⟨_, _, ht, ht', ?_, fun hkeyword => ?_⟩
  · rcases h with htext | ⟨hword, hsome, hupper⟩
    · have hsame : l'.kind? = l.kind? := by
        unfold kind? body
        rw [hform, htext]
      exact Option.some.inj (hk.symm.trans (hsame.symm.trans hk'))
    · obtain ⟨w, hw⟩ := Option.isSome_iff_exists.1 hsome
      have hw' : Keyword.ofLetters? l'.text = some w := by
        unfold Keyword.ofLetters? at hw ⊢
        rw [hupper, hw]
      have hword' : l'.form = .word := hform.trans hword
      have hk : some (Token.Kind.keyword w) = some k := by
        rw [← hk, kind?, hword]
        simp only [hw]
      have hk' : some (Token.Kind.keyword w) = some k' := by
        rw [← hk', kind?, hword']
        simp only [hw']
      exact Option.some.inj (hk.symm.trans hk')
  · show upper (String.ofList l.text) = upper (String.ofList l'.text)
    unfold upper
    rcases h with htext | ⟨-, -, hupper⟩
    · rw [htext]
    · rw [String.toList_ofList, String.toList_ofList, hupper]

/-- Lexemes in another spelling are tokens too, and of the same kinds. -/
theorem tokens_respells {ls ls' : List Lexeme}
    (h : List.Forall₂ (fun l l' => l'.form = l.form ∧ l.Respells l'.text) ls ls')
    (hls : ∀ l ∈ ls, l.form.isToken = true) :
    (∀ l' ∈ ls', l'.form.isToken = true)
      ∧ List.Forall₂ Token.Respelled (ls.filterMap token?) (ls'.filterMap token?) := by
  induction h with
  | nil => exact ⟨List.forall_mem_nil _, .nil⟩
  | @cons l l' ls ls' hl _ ih =>
    rw [List.forall_mem_cons] at hls
    obtain ⟨htokens, hrespelled⟩ := ih hls.2
    obtain ⟨t, t', ht, ht', hhead⟩ := token?_respells hl.1 hl.2 hls.1
    rw [List.filterMap_cons_some ht, List.filterMap_cons_some ht', List.forall_mem_cons]
    exact ⟨⟨by rw [hl.1]; exact hls.1, htokens⟩, .cons hhead hrespelled⟩

theorem filterMap_token?_words {lexemes : List Lexeme} :
    (words lexemes).filterMap token? = lexemes.filterMap token? := by
  induction lexemes with
  | nil => rfl
  | cons l ls ih =>
    unfold words at ih ⊢
    by_cases hsep : l.form = .separator
    · rw [List.filter_cons_of_neg (by simpa using hsep),
        List.filterMap_cons_none (token?_separator hsep), ih]
    · rw [List.filter_cons_of_pos (by simpa using hsep), List.filterMap_cons,
        List.filterMap_cons, ih]

/-! ## White space between tokens -/

theorem isBlank_of_separates {c : Char} (h : separates c = true) : Text.isBlank c = true := by
  rcases mem_separators h with rfl | rfl | rfl | rfl | rfl <;> decide

/-- The form is neither that of a separator nor that of a word. -/
def Form.Other (f : Form) : Prop := f ≠ .separator ∧ f ≠ .word

theorem other_number (ahead : List Char) : (number ahead).1.Other := by
  unfold number
  dsimp only
  split
  · split <;> exact ⟨nofun, nofun⟩
  · exact ⟨nofun, nofun⟩

theorem other_afterDollar (ahead : List Char) : (afterDollar ahead).1.Other := by
  unfold afterDollar
  split
  · split <;> exact ⟨nofun, nofun⟩
  · exact ⟨nofun, nofun⟩

theorem other_afterSlash (ahead : List Char) : (afterSlash ahead).1.Other := by
  unfold afterSlash
  split
  · exact ⟨nofun, nofun⟩
  · split <;> exact ⟨nofun, nofun⟩
  · exact ⟨nofun, nofun⟩

theorem other_symbol (c : Char) (ahead : List Char) : (symbol c ahead).1.Other := by
  unfold symbol
  split <;> exact ⟨nofun, nofun⟩

/-- Separators are single characters, and words are as long as they can be;
everything else is neither. -/
theorem measure_cases {c : Char} {ahead : List Char} {form : Form} {n : Nat}
    (h : measure c ahead = (form, n)) :
    (separates c = true ∧ form = .separator ∧ n = 0)
      ∨ (startsWord c = true ∧ form = .word ∧ n = run continuesWord ahead) ∨ form.Other := by
  unfold measure at h
  split at h
  · next hsep => exact .inl ⟨hsep, (Prod.mk.inj h).1.symm, (Prod.mk.inj h).2.symm⟩
  · right
    split at h
    · have hother := other_number ahead
      rw [h] at hother
      exact .inr hother
    · split at h
      · next hstart => exact .inl ⟨hstart, (Prod.mk.inj h).1.symm, (Prod.mk.inj h).2.symm⟩
      · right
        split at h
        · have hother := other_afterDollar ahead
          rw [h] at hother
          exact hother
        · split at h
          · have hother := other_afterSlash ahead
            rw [h] at hother
            exact hother
          · split at h
            · rw [← (Prod.mk.inj h).1]
              exact ⟨nofun, nofun⟩
            · split at h
              · rw [← (Prod.mk.inj h).1]
                exact ⟨nofun, nofun⟩
              · have hother := other_symbol c ahead
                rw [h] at hother
                exact hother

/-- In front of the first token of a text there are separators only, and a
reserved word starts like a word. -/
theorem exists_gap {start line : Nat} {text : List Char} {u : Token} {us : List Token}
    (hbare : ∀ l ∈ cut start line text, l.Bare)
    (h : (cut start line text).filterMap token? = u :: us) :
    ∃ gap rest, text = gap ++ rest ∧ (∀ c ∈ gap, separates c = true)
      ∧ u.span.start = start + Text.byteLength gap
      ∧ (u.kind.isKeyword = true → ∃ c ∈ rest.head?, startsWord c = true) := by
  fun_induction cut start line text with
  | case1 => cases h
  | case2 start line c ahead form n hm piece ih =>
    rw [List.forall_mem_cons] at hbare
    obtain ⟨hhere, hbare⟩ := hbare
    rcases hhere with hsep | htoken
    · rw [List.filterMap_cons_none (token?_separator hsep)] at h
      obtain ⟨gap, rest, htext, hgap, hstart, hword⟩ := ih hbare h
      have hone : separates c = true ∧ n = 0 := by
        rcases measure_cases hm with ⟨hc, -, hn⟩ | ⟨-, hform, -⟩ | hother
        · exact ⟨hc, hn⟩
        · cases hsep.symm.trans hform
        · exact absurd hsep hother.1
      obtain ⟨hc, rfl⟩ := hone
      refine ⟨c :: gap, rest, ?_, List.forall_mem_cons.2 ⟨hc, hgap⟩, ?_, hword⟩
      · rw [List.cons_append, ← htext, List.drop_zero]
      · rw [hstart]
        simp [piece, Text.byteLength, Nat.add_assoc]
    · obtain ⟨k, hk, ht⟩ := exists_token? htoken
      rw [List.filterMap_cons_some ht] at h
      obtain ⟨rfl, -⟩ := List.cons.inj h
      refine ⟨[], c :: ahead, rfl, List.forall_mem_nil _, rfl, fun hkeyword => ⟨c, rfl, ?_⟩⟩
      have hword : form = .word := form_of_isKeyword hk hkeyword
      rcases measure_cases hm with ⟨-, hform, -⟩ | ⟨hc, -, -⟩ | hother
      · cases hword.symm.trans hform
      · exact hc
      · exact absurd hword hother.2

/-- The white space between reserved words that follow one another is there,
and nothing else is between them. -/
def Spaced (source : List Char) (t u : Token) : Prop :=
  t.kind.isKeyword = true → u.kind.isKeyword = true → Token.parted source t u = true

/-- Reserved words never touch: they would be one word. -/
theorem isChain_spaced {source : List Char} (start line : Nat) (text : List Char) :
    ∀ before, source = before ++ text → Text.byteLength before = start →
      (∀ l ∈ cut start line text, l.Bare) →
      ((cut start line text).filterMap token?).IsChain (Spaced source) := by
  fun_induction cut start line text with
  | case1 => exact fun _ _ _ _ => .nil
  | case2 start line c ahead form n hm piece ih =>
    intro before hsource hstart hbare
    rw [List.forall_mem_cons] at hbare
    obtain ⟨hhere, hbare⟩ := hbare
    have hpiece : c :: ahead = piece ++ ahead.drop n := by
      simp only [piece, List.cons_append, List.take_append_drop]
    have hsource' : source = (before ++ piece) ++ ahead.drop n := by
      rw [hsource, hpiece, List.append_assoc]
    have hbehind : Text.byteLength (before ++ piece) = start + Text.byteLength piece := by
      rw [Text.byteLength_append, hstart]
    have hrest := ih _ hsource' hbehind hbare
    rcases hhere with hsep | htoken
    · rw [List.filterMap_cons_none (token?_separator hsep)]
      exact hrest
    · obtain ⟨k, hk, ht⟩ := exists_token? htoken
      rw [List.filterMap_cons_some ht, List.isChain_cons]
      refine ⟨fun u hu => ?_, hrest⟩
      intro hkeyword hkeyword'
      obtain ⟨us, hus⟩ := List.head?_eq_some_iff.1 hu
      obtain ⟨gap, rest, htext, hgap, hat, hword⟩ := exists_gap hbare hus
      have hform : form = .word := form_of_isKeyword hk hkeyword
      have hn : n = run continuesWord ahead := by
        rcases measure_cases hm with ⟨-, hform', -⟩ | ⟨-, -, hn⟩ | hother
        · cases hform.symm.trans hform'
        · exact hn
        · exact absurd hform hother.2
      -- The first word has taken all that belongs to a word.
      have hends : ∀ d ∈ (ahead.drop n).head?, continuesWord d = false := by
        obtain ⟨front, back, rfl, hfront, hback⟩ := exists_run continuesWord ahead
        rw [hn, run_append hfront hback, List.drop_left]
        exact hback
      have hne : gap ≠ [] := by
        rintro rfl
        obtain ⟨d, hd, hstarts⟩ := hword hkeyword'
        rw [htext, List.nil_append] at hends
        have hcontinues : continuesWord d = true := by
          unfold startsWord at hstarts
          unfold continuesWord Char.isAlphanum
          rw [Bool.or_eq_true] at hstarts
          rcases hstarts with halpha | hline
          · rw [halpha, Bool.true_or, Bool.true_or]
          · rw [hline, Bool.or_true]
        rw [hends d hd] at hcontinues
        cases hcontinues
      have hslice : Text.slice source ⟨start + Text.byteLength piece, u.span.start⟩ = gap := by
        rw [hsource', htext, hat, ← hbehind]
        exact Text.slice_middle _ gap rest
      show (!(Text.slice source ⟨start + Text.byteLength piece, u.span.start⟩).isEmpty
        && (Text.slice source ⟨start + Text.byteLength piece, u.span.start⟩).all Text.isBlank)
          = true
      rw [hslice, Bool.and_eq_true, List.all_eq_true]
      exact ⟨by simpa using hne, fun d hd => isBlank_of_separates (hgap d hd)⟩

end Lexeme

/-! ## Putting words together -/

namespace Token

open Lexeme (Spaced)

variable {source source' : List Char}

/-- The words of an operator are found in both texts or in neither. -/
theorem isSome_spelled? (words : List Keyword) {last last' : Token} {ahead ahead' : List Token}
    (hlast : last.kind.isKeyword = true) (hlast' : last.Respelled last')
    (hahead : List.Forall₂ Respelled ahead ahead')
    (hspaced : (last :: ahead).IsChain (Spaced source))
    (hspaced' : (last' :: ahead').IsChain (Spaced source')) :
    (spelled? source last words ahead).isSome = (spelled? source' last' words ahead').isSome := by
  induction words generalizing last last' ahead ahead' with
  | nil => rfl
  | cons word words ih =>
    cases hahead with
    | nil => rfl
    | @cons next next' ahead ahead' hnext hahead =>
      rw [List.isChain_cons_cons] at hspaced hspaced'
      unfold spelled?
      by_cases hword : next.kind = .keyword word
      · have hkeyword : next.kind.isKeyword = true := by rw [hword]; rfl
        have hword' : next'.kind = .keyword word := hnext.kind.symm.trans hword
        have hkeyword' : next'.kind.isKeyword = true := by rw [hword']; rfl
        have hparted := hspaced.1 hlast hkeyword
        have hparted' := hspaced'.1 (by rw [← hlast'.kind]; exact hlast) hkeyword'
        rw [if_pos ⟨hword, hparted⟩, if_pos ⟨hword', hparted'⟩]
        exact ih hkeyword hnext hahead hspaced.2 hspaced'.2
      · rw [if_neg fun h => hword h.1, if_neg fun h => hword (hnext.kind.trans h.1)]

/-- One rule applies in both texts, or none. -/
theorem wordOperator?_respelled {t t' : Token} {ahead ahead' : List Token}
    (ht : t.Respelled t') (hahead : List.Forall₂ Respelled ahead ahead')
    (hspaced : (t :: ahead).IsChain (Spaced source))
    (hspaced' : (t' :: ahead').IsChain (Spaced source')) :
    (wordOperator? source t ahead).map Prod.fst
      = (wordOperator? source' t' ahead').map Prod.fst := by
  unfold wordOperator?
  rw [List.map_findSome?, List.map_findSome?]
  congr 1
  funext rule
  rw [Function.comp_apply, Function.comp_apply]
  by_cases hfirst : t.kind = .keyword rule.first
  · have hkeyword : t.kind.isKeyword = true := by rw [hfirst]; rfl
    have hsome := isSome_spelled? rule.others hkeyword ht hahead hspaced hspaced'
    rw [if_pos hfirst, if_pos (ht.kind.symm.trans hfirst), Option.map_map, Option.map_map]
    cases hs : spelled? source t rule.others ahead with
    | none =>
      rw [hs, Option.isSome_none, eq_comm, Option.isSome_eq_false_iff, Option.isNone_iff_eq_none]
        at hsome
      rw [hsome]
    | some last =>
      rw [hs, Option.isSome_some, eq_comm, Option.isSome_iff_exists] at hsome
      obtain ⟨last', hs'⟩ := hsome
      rw [hs']
      rfl
  · rw [if_neg hfirst, if_neg fun h => hfirst (ht.kind.trans h)]

/-- Tokens that differ in place and in the case of reserved words only are put
together alike. -/
theorem mergeFrom_respelled (afterDot : Bool) (tokens : List Token) :
    ∀ tokens', List.Forall₂ Respelled tokens tokens' → tokens.IsChain (Spaced source) →
      tokens'.IsChain (Spaced source') →
      List.Forall₂ Respelled (mergeFrom source afterDot tokens)
        (mergeFrom source' afterDot tokens') := by
  fun_induction mergeFrom source afterDot tokens with
  | case1 =>
    intro tokens' h _ _
    cases h
    rw [mergeFrom]
    exact .nil
  | case2 afterDot t ahead rule last hrule ih =>
    intro tokens' h hspaced hspaced'
    cases h with
    | @cons _ t' _ ahead' ht hahead =>
      have hnot : afterDot = false := by
        cases afterDot with
        | false => rfl
        | true => cases hrule
      subst hnot
      have hsame := wordOperator?_respelled ht hahead hspaced hspaced'
      rw [dif_neg Bool.false_ne_true] at hrule
      rw [hrule, Option.map_some, eq_comm, Option.map_eq_some_iff] at hsame
      obtain ⟨⟨rule', last'⟩, hrule', rfl⟩ := hsame
      rw [mergeFrom, if_neg Bool.false_ne_true, hrule']
      refine .cons ⟨rfl, fun hword => by cases hword⟩ (ih _ (List.forall₂_drop _ hahead) ?_ ?_)
      · exact hspaced.tail.drop _
      · exact hspaced'.tail.drop _
  | case3 afterDot t ahead hrule ih =>
    intro tokens' h hspaced hspaced'
    cases h with
    | @cons _ t' _ ahead' ht hahead =>
      have hrule' : (if afterDot = true then none else wordOperator? source' t' ahead') = none := by
        cases afterDot with
        | true => rfl
        | false =>
          have hsame := wordOperator?_respelled ht hahead hspaced hspaced'
          rw [dif_neg Bool.false_ne_true] at hrule
          rw [if_neg Bool.false_ne_true]
          rwa [hrule, Option.map_none, eq_comm, Option.map_eq_none_iff] at hsame
      rw [mergeFrom, hrule', ← ht.kind]
      exact .cons ht (ih _ hahead hspaced.tail hspaced'.tail)

/-- Putting words together makes operators only. -/
theorem mem_of_mem_mergeFrom {afterDot : Bool} {tokens : List Token} {t : Token}
    (h : t ∈ mergeFrom source afterDot tokens) (hkeyword : t.kind.isKeyword = true) :
    t ∈ tokens := by
  obtain ⟨t', ht', rfl | ⟨⟨op, hop⟩, -⟩⟩ := exists_of_mem_mergeFrom h
  · exact ht'
  · rw [hop] at hkeyword
    cases hkeyword

end Token

/-! ## The tokens of a text laid out anew -/

namespace Lexeme

/-- The form is that of a comment, closed or not. -/
def Form.isComment : Form → Bool
  | .lineComment | .blockComment _ => true
  | _ => false

/-- What is no comment and has no fault is a token or a separator. -/
theorem bare_of_mem_cut {start line : Nat} {text : List Char} {l : Lexeme}
    (h : l ∈ cut start line text) (hcomment : l.form.isComment = false)
    (hfault : l.fault? = none) : l.Bare := by
  have hne : l.text ≠ [] := by
    clear hcomment hfault
    fun_induction cut start line text with
    | case1 => cases h
    | case2 start line c rest form n hm piece ih =>
      rcases List.mem_cons.1 h with rfl | hmem
      · exact List.cons_ne_nil _ _
      · exact ih hmem
  have hcause : l.cause? = none := Option.map_eq_none_iff.1 hfault
  unfold cause? at hcause
  unfold Bare
  cases hform : l.form with
  | separator => exact .inl rfl
  | lineComment | blockComment closed =>
    rw [hform] at hcomment
    cases hcomment
  | illegal =>
    rw [hform] at hcause
    simp only [Option.map_eq_none_iff, List.head?_eq_none_iff] at hcause
    exact absurd hcause hne
  | string closed | quotedName closed =>
    cases closed with
    | true => exact .inr rfl
    | false =>
      rw [hform] at hcause
      cases hcause
  | _ => exact .inr rfl

theorem fault?_of_bare {l : Lexeme} (h : l.Bare) : l.fault? = none := by
  unfold fault? cause?
  rcases h with hform | htoken
  · rw [hform]
    rfl
  · cases hform : l.form with
    | illegal =>
      rw [hform] at htoken
      cases htoken
    | blockComment closed | string closed | quotedName closed =>
      cases closed with
      | true => rfl
      | false =>
        rw [hform] at htoken
        cases htoken
    | _ => rfl

end Lexeme

namespace TokenStream

open Lexeme (words)

variable {text text' : List Char}

/-- A text of bare lexemes and any text that they are laid out to have the same
tokens, up to their places and the case of reserved words. -/
theorem tokens_of_laid (hbare : ∀ l ∈ Lexeme.ofText text, l.Bare)
    (h : Lexeme.Laid (words (Lexeme.ofText text)) text') :
    List.Forall₂ Token.Respelled (ofChars text).tokens (ofChars text').tokens
      ∧ (ofChars text').faults = [] := by
  have htoken : ∀ l ∈ words (Lexeme.ofText text), l.form.isToken = true := by
    intro l hl
    obtain ⟨hmem, hne⟩ := List.mem_filter.1 hl
    rcases hbare l hmem with hsep | htoken
    · exact absurd hsep (by simpa using hne)
    · exact htoken
  have hwords := Lexeme.words_cut_of_laid h (fun l hl =>
    ⟨Lexeme.loose_of_mem_cut (List.mem_filter.1 hl).1 (htoken l hl), htoken l hl⟩) 0 1
  obtain ⟨htoken', hraw⟩ := Lexeme.tokens_respells hwords htoken
  have hbare' : ∀ l ∈ Lexeme.ofText text', l.Bare := by
    intro l' hl'
    by_cases hsep : l'.form = .separator
    · exact .inl hsep
    · exact .inr (htoken' l' (List.mem_filter.2 ⟨hl', by simpa using hsep⟩))
  rw [Lexeme.filterMap_token?_words, Lexeme.filterMap_token?_words] at hraw
  have hspaced := Lexeme.isChain_spaced 0 1 text [] rfl rfl hbare
  have hspaced' := Lexeme.isChain_spaced 0 1 text' [] rfl rfl hbare'
  refine ⟨Token.mergeFrom_respelled false _ _ hraw hspaced hspaced', ?_⟩
  exact List.filterMap_eq_nil_iff.2 fun l hl => Lexeme.fault?_of_bare (hbare' l hl)

/-- The text of a reserved word spells one. -/
theorem ofName?_of_mem_tokens {t : Token} (h : t ∈ (ofChars text).tokens)
    (hkeyword : t.kind.isKeyword = true) : (Keyword.ofName? t.text).isSome := by
  obtain ⟨l, -, hl⟩ := List.mem_filterMap.1 (Token.mem_of_mem_mergeFrom h hkeyword)
  obtain ⟨k, hk, rfl⟩ := Option.map_eq_some_iff.1 hl
  have hword : l.form = .word := Lexeme.form_of_isKeyword hk hkeyword
  unfold Lexeme.kind? at hk
  rw [hword] at hk
  show (Keyword.ofLetters? (String.ofList l.text).toList).isSome = true
  rw [String.toList_ofList]
  cases hletters : Keyword.ofLetters? l.text with
  | some w => rfl
  | none =>
    rw [hletters] at hk
    cases hk
    cases hkeyword

end TokenStream

end Cypher
