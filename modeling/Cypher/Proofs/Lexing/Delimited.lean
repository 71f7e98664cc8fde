import Cypher.Proofs.Lexing.Accounted

/-!
# Where delimited forms end

A comment, a string and a quoted name end where the rules for their delimiters
say, which are stated here on the text alone: at the first mark that closes a
comment, and at the first quote that no backslash is paired with. Where there is
none the form is reported, and ends with the text, or with the line if it is a
string. In each case the text is read on right behind it.
-/

namespace Cypher

namespace Text

/-! ## Marks that close -/

/-- The text closes a comment right behind `body`. -/
def Stops (text body rest : List Char) : Prop := text = body ++ '*' :: '/' :: rest

/-- Whether a text that is read from left to right, each backslash with the character
behind it, has a character for its last backslash. -/
def settled : List Char → Bool
  | [] => true
  | '\\' :: [] => false
  | '\\' :: _ :: rest => settled rest
  | _ :: rest => settled rest

/-- A quote stands behind `body`, and no backslash is paired with it. -/
def Unpaired (quote : Char) (text body rest : List Char) : Prop :=
  text = body ++ quote :: rest ∧ settled body = true

/-- Of the places where a text can be parted so, this one is the first. -/
structure First (Parts : List Char → List Char → Prop) (body rest : List Char) : Prop where
  parts : Parts body rest
  least : ∀ body' rest', Parts body' rest' → body.length ≤ body'.length

section Marks

variable {c quote : Char} {text body rest : List Char}

/-- What parts a text does so behind its head as it does in its tail. -/
theorem First.behind {Parts Parts' : List Char → List Char → Prop} (front : List Char)
    (h : First Parts body rest) (hparts : Parts' (front ++ body) rest)
    (hback : ∀ body' rest', Parts' body' rest' →
      ∃ body'', body' = front ++ body'' ∧ Parts body'' rest') :
    First Parts' (front ++ body) rest := by
  refine ⟨hparts, fun body' rest' h' => ?_⟩
  obtain ⟨body'', rfl, hparts''⟩ := hback body' rest' h'
  have hle := h.least body'' rest' hparts''
  simp only [List.length_append]
  omega

theorem stops_cons (h : ¬ (c = '*' ∧ text.head? = some '/')) :
    Stops (c :: text) body rest ↔ ∃ body', body = c :: body' ∧ Stops text body' rest := by
  constructor
  · intro hstops
    cases body with
    | nil =>
      obtain ⟨rfl, rfl⟩ := List.cons.inj hstops
      exact absurd ⟨rfl, rfl⟩ h
    | cons d body =>
      obtain ⟨rfl, htext⟩ := List.cons.inj hstops
      exact ⟨body, rfl, htext⟩
  · rintro ⟨body', rfl, rfl⟩
    rfl

theorem settled_cons (h : c ≠ '\\') : settled (c :: text) = settled text := by
  rw [settled]
  · exact fun heq _ => h heq
  · exact fun _ _ heq _ => h heq

theorem unpaired_cons (hslash : c ≠ '\\') (hquote : c ≠ quote) :
    Unpaired quote (c :: text) body rest
      ↔ ∃ body', body = c :: body' ∧ Unpaired quote text body' rest := by
  constructor
  · rintro ⟨htext, hsettled⟩
    cases body with
    | nil => exact absurd (List.cons.inj htext).1 hquote
    | cons d body =>
      obtain ⟨rfl, hrest⟩ := List.cons.inj htext
      exact ⟨body, rfl, hrest, (settled_cons hslash).symm.trans hsettled⟩
  · rintro ⟨body', rfl, rfl, hsettled⟩
    exact ⟨rfl, (settled_cons hslash).trans hsettled⟩

/-- A quote behind a backslash is paired with it. -/
theorem unpaired_pair (hquote : quote ≠ '\\') :
    Unpaired quote ('\\' :: c :: text) body rest
      ↔ ∃ body', body = '\\' :: c :: body' ∧ Unpaired quote text body' rest := by
  constructor
  · rintro ⟨htext, hsettled⟩
    match body with
    | [] => exact absurd (List.cons.inj htext).1.symm hquote
    | [d] =>
      obtain ⟨rfl, -⟩ := List.cons.inj htext
      cases hsettled
    | d :: e :: body =>
      obtain ⟨rfl, hrest⟩ := List.cons.inj htext
      obtain ⟨rfl, htail⟩ := List.cons.inj hrest
      exact ⟨body, rfl, htail, hsettled⟩
  · rintro ⟨body', rfl, rfl, hsettled⟩
    exact ⟨rfl, hsettled⟩

/-- A backslash at the end is paired with nothing, and so is no quote. -/
theorem not_unpaired_backslash (hquote : quote ≠ '\\') : ¬ Unpaired quote ['\\'] body rest := by
  rintro ⟨htext, -⟩
  cases body with
  | nil => exact hquote (List.cons.inj htext).1.symm
  | cons d body => simp at htext

end Marks

/-- The part of a text in which the quote of a name or a string is looked for. -/
def reach (multiline : Bool) (text : List Char) : List Char :=
  if multiline then text else text.takeWhile (· ≠ '\n')

theorem reach_cons {multiline : Bool} {c : Char} (h : ¬ (c = '\n' ∧ (!multiline) = true))
    (text : List Char) : reach multiline (c :: text) = c :: reach multiline text := by
  unfold reach
  cases multiline with
  | true => rfl
  | false =>
    have hc : c ≠ '\n' := fun hc => h ⟨hc, rfl⟩
    simp [hc]

theorem reach_newline (text : List Char) : reach false ('\n' :: text) = [] := rfl

theorem reach_prefix (multiline : Bool) (text : List Char) : reach multiline text <+: text := by
  cases multiline with
  | true => exact List.prefix_rfl
  | false => exact List.takeWhile_prefix _

end Text

open Text (First Stops Unpaired reach)

namespace Lexeme

/-! ## Bodies -/

/-- The body of a comment stops at the first mark that closes one. -/
theorem commentBody?_cases (text : List Char) :
    (∃ body rest, First (Stops text) body rest ∧ commentBody? text = some (body.length + 2))
      ∨ (∀ body rest, ¬ Stops text body rest) ∧ commentBody? text = none := by
  fun_induction commentBody? text with
  | case1 =>
    refine .inr ⟨fun body rest h => ?_, rfl⟩
    have hlength := congrArg List.length h
    simp at hlength
  | case2 c text hclose =>
    obtain ⟨rfl, hslash⟩ := hclose
    obtain ⟨rest, rfl⟩ := List.head?_eq_some_iff.1 hslash
    exact .inl ⟨[], rest, ⟨rfl, fun _ _ _ => Nat.zero_le _⟩, rfl⟩
  | case3 c text hopen ih =>
    rcases ih with ⟨body, rest, hfirst, hbody⟩ | ⟨hnone, hbody⟩
    · refine .inl ⟨c :: body, rest, ?_, by rw [hbody]; rfl⟩
      exact hfirst.behind [c] ((Text.stops_cons hopen).2 ⟨body, rfl, hfirst.parts⟩)
        fun body' rest' h => (Text.stops_cons hopen).1 h
    · refine .inr ⟨fun body rest h => ?_, by rw [hbody]; rfl⟩
      obtain ⟨body', -, hstops⟩ := (Text.stops_cons hopen).1 h
      exact hnone body' rest hstops

/-- The body of a string or a quoted name stops at the first quote that no backslash is
paired with, and where there is none it takes all that it may. -/
theorem quotedBody_cases {quote : Char} (hquote : quote ≠ '\\') (hline : quote ≠ '\n')
    (multiline : Bool) (text : List Char) :
    (∃ body rest, First (Unpaired quote (reach multiline text)) body rest
        ∧ quotedBody quote multiline text = (body.length + 1, true))
      ∨ (∀ body rest, ¬ Unpaired quote (reach multiline text) body rest)
        ∧ quotedBody quote multiline text = ((reach multiline text).length, false) := by
  have hnil : ∀ body rest, ¬ Unpaired quote [] body rest := by
    rintro body rest ⟨htext, -⟩
    simp at htext
  have hslash (c : Char) (hc : c ≠ '\n') : ¬ (c = '\n' ∧ (!multiline) = true) := fun h => hc h.1
  fun_induction quotedBody quote multiline text with
  | case1 =>
    refine .inr ⟨?_, ?_⟩ <;> cases multiline <;> first | exact hnil | rfl
  | case2 =>
    rw [Text.reach_cons (hslash '\\' (by decide))]
    refine .inr ⟨?_, ?_⟩ <;> cases multiline <;>
      first | exact fun _ _ => Text.not_unpaired_backslash hquote | rfl
  | case3 c rest hstop =>
    obtain ⟨rfl, hsingle⟩ := hstop
    obtain rfl : multiline = false := by simpa using hsingle
    rw [Text.reach_cons (hslash '\\' (by decide)), Text.reach_newline]
    exact .inr ⟨fun _ _ => Text.not_unpaired_backslash hquote, rfl⟩
  | case4 c rest hgo n closed hrest ih =>
    rw [Text.reach_cons (hslash '\\' (by decide)), Text.reach_cons hgo]
    rcases ih with ⟨body, after, hfirst, hbody⟩ | ⟨hnone, hbody⟩
    · obtain ⟨rfl, rfl⟩ := Prod.mk.inj (hrest.symm.trans hbody)
      refine .inl ⟨'\\' :: c :: body, after, ?_, rfl⟩
      exact hfirst.behind ['\\', c]
        ((Text.unpaired_pair hquote).2 ⟨body, rfl, hfirst.parts⟩)
        fun body' rest' h => (Text.unpaired_pair hquote).1 h
    · obtain ⟨rfl, rfl⟩ := Prod.mk.inj (hrest.symm.trans hbody)
      refine .inr ⟨fun body after h => ?_, rfl⟩
      obtain ⟨body', -, hunpaired⟩ := (Text.unpaired_pair hquote).1 h
      exact hnone body' after hunpaired
  | case5 rest =>
    rw [Text.reach_cons (hslash quote hline)]
    exact .inl ⟨[], reach multiline rest, ⟨⟨rfl, rfl⟩, fun _ _ _ => Nat.zero_le _⟩, rfl⟩
  | case6 c rest _ _ _ hstop =>
    obtain ⟨rfl, hsingle⟩ := hstop
    obtain rfl : multiline = false := by simpa using hsingle
    exact .inr ⟨hnil, rfl⟩
  | case7 c rest hend hpair hne hgo n closed hrest ih =>
    have hc : c ≠ '\\' := by
      rintro rfl
      cases rest with
      | nil => exact hend rfl rfl
      | cons d ds => exact hpair d ds rfl rfl
    rw [Text.reach_cons hgo]
    rcases ih with ⟨body, after, hfirst, hbody⟩ | ⟨hnone, hbody⟩
    · obtain ⟨rfl, rfl⟩ := Prod.mk.inj (hrest.symm.trans hbody)
      refine .inl ⟨c :: body, after, ?_, rfl⟩
      exact hfirst.behind [c] ((Text.unpaired_cons hc hne).2 ⟨body, rfl, hfirst.parts⟩)
        fun body' rest' h => (Text.unpaired_cons hc hne).1 h
    · obtain ⟨rfl, rfl⟩ := Prod.mk.inj (hrest.symm.trans hbody)
      refine .inr ⟨fun body after h => ?_, rfl⟩
      obtain ⟨body', -, hunpaired⟩ := (Text.unpaired_cons hc hne).1 h
      exact hnone body' after hunpaired

/-! ## Measuring from an opening delimiter -/

theorem measure_quote {quote : Char} (hquote : quote = '\'' ∨ quote = '"') (ahead : List Char) :
    measure quote ahead
      = (.string (quotedBody quote false ahead).2, (quotedBody quote false ahead).1) := by
  rcases hquote with rfl | rfl <;> rfl

end Lexeme

namespace Token

/-- Words are put together, and nothing else. -/
theorem mem_mergeFrom {source : List Char} {afterDot : Bool} {tokens : List Token} {t : Token}
    (ht : t ∈ tokens) (hkind : ∀ word, t.kind ≠ .keyword word) :
    t ∈ mergeFrom source afterDot tokens := by
  fun_induction mergeFrom source afterDot tokens with
  | case1 => cases ht
  | case2 afterDot first ahead rule last hrule ih =>
    have hfound : wordOperator? source first ahead = some (rule, last) := by
      cases afterDot with
      | true => cases hrule
      | false => exact hrule
    obtain ⟨-, hfirst, hspelled⟩ := spelled_of_wordOperator? hfound
    obtain ⟨run, rest, rfl, hwords, -, -⟩ := exists_run_of_spelled? hspelled
    have hlength : rule.others.length = run.length := by
      simpa only [List.length_map] using (congrArg List.length hwords).symm
    have hrun : t ∉ run := by
      intro hmem
      have hword := List.mem_map_of_mem (f := kind) hmem
      rw [hwords] at hword
      obtain ⟨word, -, hword⟩ := List.mem_map.1 hword
      exact hkind word hword.symm
    rcases List.mem_cons.1 ht with rfl | hmem
    · exact absurd hfirst (hkind _)
    · refine List.mem_cons_of_mem _ (ih ?_)
      rw [hlength, List.drop_left]
      exact (List.mem_append.1 hmem).resolve_left hrun
  | case3 afterDot first ahead hrule ih =>
    rcases List.mem_cons.1 ht with rfl | hmem
    · exact List.mem_cons_self
    · exact List.mem_cons_of_mem _ (ih hmem)

end Token

namespace TokenStream

variable {text ahead after : List Char} {l : Lexeme}

/-! ## Reports -/

/-- It is reported that the lexeme is not closed. -/
def Reported (text : List Char) (what : Delimited) (l : Lexeme) : Prop :=
  ⟨.unclosed what, l.span, l.line, some (String.ofList (l.text.take 1))⟩ ∈ (ofChars text).faults

/-- Nothing is reported of the lexeme. -/
def Sound (text : List Char) (l : Lexeme) : Prop :=
  ∀ f ∈ (ofChars text).faults, f.site.span.Disjoint l.span

theorem reported_of_cause? {what : Delimited} (hl : l ∈ Lexeme.ofText text)
    (hcause : l.cause? = some (.unclosed what)) : Reported text what l :=
  List.mem_filterMap.2 ⟨l, hl, by rw [Lexeme.fault?, hcause]; rfl⟩

theorem sound_of_cause? (hl : l ∈ Lexeme.ofText text) (hcause : l.cause? = none) :
    Sound text l := by
  intro f hf
  obtain ⟨l', hl', hfault⟩ := List.mem_filterMap.1 hf
  obtain ⟨cause, hcause', rfl⟩ := Option.map_eq_some_iff.1 hfault
  rcases Lexeme.eq_or_disjoint hl' hl with rfl | hdisjoint
  · rw [hcause] at hcause'
    cases hcause'
  · exact hdisjoint

/-! ## Ends -/

/-- Where the comment ends that the lexeme is, with `ahead` behind what opens it and
`after` behind it all. -/
structure CommentEnds (text : List Char) (l : Lexeme) (ahead after : List Char) : Prop where
  discarded : ∀ t ∈ (ofChars text).tokens, t.span.Disjoint l.span
  ends : (∃ body, First (Stops ahead) body after
      ∧ l.text = '/' :: '*' :: (body ++ ['*', '/']) ∧ Sound text l)
    ∨ (∀ body rest, ¬ Stops ahead body rest)
      ∧ l.text = '/' :: '*' :: ahead ∧ Reported text .comment l

/-- Where the string or the name ends that the lexeme is, with `ahead` behind the quote
that opens it. -/
structure QuoteEnds (text : List Char) (l : Lexeme) (what : Delimited)
    (kind : String → Token.Kind) (quote : Char) (multiline : Bool) (ahead : List Char) :
    Prop where
  token : ∃ t ∈ (ofChars text).tokens, t.span = l.span ∧ ∃ value, t.kind = kind value
  ends : (∃ body rest, First (Unpaired quote (reach multiline ahead)) body rest
      ∧ l.text = quote :: (body ++ [quote]) ∧ Sound text l)
    ∨ (∀ body rest, ¬ Unpaired quote (reach multiline ahead) body rest)
      ∧ l.text = quote :: reach multiline ahead ∧ Reported text what l

theorem commentEnds {n : Nat} (hl : l ∈ Lexeme.ofText text)
    (hmeasure : Lexeme.measure '/' ('*' :: ahead) = (l.form, n))
    (hpiece : l.text = '/' :: ('*' :: ahead).take n) :
    CommentEnds text l ahead (('*' :: ahead).drop n) := by
  have hslash : Lexeme.afterSlash ('*' :: ahead) = (l.form, n) := hmeasure
  unfold Lexeme.afterSlash at hslash
  rcases Lexeme.commentBody?_cases ahead with ⟨body, rest, hfirst, hbody⟩ | ⟨hnone, hbody⟩
  · simp only [hbody] at hslash
    obtain ⟨hform, rfl⟩ := Prod.mk.inj hslash
    have hahead : ahead = (body ++ ['*', '/']) ++ rest := by
      rw [hfirst.parts, List.append_assoc]
      rfl
    have hlength : body.length + 2 = (body ++ ['*', '/']).length := by simp
    refine ⟨fun t ht => (accounted text).comments t ht l hl (by rw [← hform]; rfl),
      .inl ⟨body, ?_, ?_, sound_of_cause? hl (by rw [Lexeme.cause?, ← hform])⟩⟩
    · rw [List.drop_succ_cons, hlength]
      conv => rhs; rw [hahead, List.drop_left]
      exact hfirst
    · rw [hpiece, List.take_succ_cons, hlength]
      conv => lhs; rw [hahead, List.take_left]
  · simp only [hbody] at hslash
    obtain ⟨hform, rfl⟩ := Prod.mk.inj hslash
    refine ⟨fun t ht => (accounted text).comments t ht l hl (by rw [← hform]; rfl),
      .inr ⟨hnone, ?_, reported_of_cause? hl (by rw [Lexeme.cause?, ← hform])⟩⟩
    rw [hpiece, List.take_succ_cons, List.take_length]

theorem quoteEnds {n : Nat} {what : Delimited} {kind : String → Token.Kind} {quote : Char}
    {multiline : Bool} (hl : l ∈ Lexeme.ofText text) (hquote : quote ≠ '\\')
    (hline : quote ≠ '\n')
    (htoken : ∃ value, l.kind? = some (kind value)) (hword : ∀ value word, kind value ≠ .keyword word)
    (hbody : ∃ closed, Lexeme.quotedBody quote multiline ahead = (n, closed)
      ∧ l.cause? = if closed then none else some (.unclosed what))
    (hpiece : l.text = quote :: ahead.take n) :
    QuoteEnds text l what kind quote multiline ahead := by
  obtain ⟨value, hkind⟩ := htoken
  obtain ⟨closed, hbody, hcause⟩ := hbody
  have hmem : (⟨kind value, l.span, l.line, String.ofList l.text⟩ : Token)
      ∈ (Lexeme.ofText text).filterMap Lexeme.token? :=
    List.mem_filterMap.2 ⟨l, hl, by rw [Lexeme.token?, hkind]; rfl⟩
  refine ⟨⟨_, Token.mem_mergeFrom hmem (hword value), rfl, value, rfl⟩, ?_⟩
  obtain ⟨more, hreach⟩ := Text.reach_prefix multiline ahead
  rcases Lexeme.quotedBody_cases hquote hline multiline ahead with
    ⟨body, rest, hfirst, hclosed⟩ | ⟨hnone, hopen⟩
  · obtain ⟨rfl, rfl⟩ := Prod.mk.inj (hbody.symm.trans hclosed)
    refine .inl ⟨body, rest, hfirst, ?_, sound_of_cause? hl hcause⟩
    have hahead : ahead = (body ++ [quote]) ++ (rest ++ more) := by
      rw [← hreach, hfirst.parts.1]
      simp
    have hlength : body.length + 1 = (body ++ [quote]).length := by simp
    rw [hpiece, hlength]
    conv => lhs; rw [hahead, List.take_left]
  · obtain ⟨rfl, rfl⟩ := Prod.mk.inj (hbody.symm.trans hopen)
    refine .inr ⟨hnone, ?_, reported_of_cause? hl hcause⟩
    rw [hpiece, List.prefix_iff_eq_take.1 (Text.reach_prefix multiline ahead)]
    simp

end TokenStream

end Cypher
