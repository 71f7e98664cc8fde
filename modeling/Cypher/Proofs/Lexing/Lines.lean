import Cypher.Proofs.Lexing.Seam

/-!
# Texts line by line

A text can be read in parts that are parted by newlines, and the tokens and
reports of the parts put one behind the other. What is wrong with a line, an
illegal character or a string that is left open, stays in the line. Only two
things must not stand at the end of a part: something that goes on beyond the
line, and the beginning of an operator of several words, or the point that
makes the next word a key.
-/

namespace Cypher

/-- The report with bytes and lines in front of its text. -/
def Diagnostic.shift (bytes lines : Nat) (d : Diagnostic) : Diagnostic :=
  { d with
    labels := d.labels.map fun label => { label with span := label.span.shift bytes }
    line := d.line.map (· + lines) }

/-- Only what goes on with another comparison names a second place. -/
theorem Fault.diagnostic_shift {f : Fault} (h : f.relatedLabels = []) (bytes lines : Nat) :
    (f.shift bytes lines).diagnostic = f.diagnostic.shift bytes lines := by
  have hrelated : (f.shift bytes lines).relatedLabels = [] := h
  unfold diagnostic Diagnostic.shift
  rw [h, hrelated]
  rfl

namespace Lexeme

/-- What is wrong with a lexeme concerns no other place. -/
theorem relatedLabels_of_fault? {l : Lexeme} {f : Fault} (h : l.fault? = some f) :
    f.relatedLabels = [] := by
  obtain ⟨cause, hcause, rfl⟩ := Option.map_eq_some_iff.1 h
  unfold cause? at hcause
  split at hcause
  · obtain ⟨c, -, rfl⟩ := Option.map_eq_some_iff.1 hcause
    rfl
  all_goals
    cases hcause
    try rfl

end Lexeme

namespace Token

/-- The last of the tokens may belong to something that goes on behind them. -/
def Unfinished (tokens : List Token) : Prop :=
  ∃ front last, tokens = front ++ [last] ∧
    (last.kind = .punctuation .dot ∨ last.kind = .keyword .STARTS ∨ last.kind = .keyword .ENDS
      ∨ last.kind = .keyword .IS
      ∨ last.kind = .keyword .NOT ∧ front.getLast?.map kind = some (.keyword .IS))

theorem behindDot_of_not_unfinished {tokens : List Token} (h : ¬ Unfinished tokens) :
    behindDot false tokens = false := by
  rcases List.eq_nil_or_concat tokens with rfl | ⟨front, last, rfl⟩
  · rfl
  · rw [List.concat_eq_append] at h ⊢
    rw [behindDot_concat, decide_eq_false_iff_not]
    exact fun hdot => h ⟨front, last, rfl, .inl hdot⟩

/-- Words that begin an operator leave it unfinished. -/
theorem Pending.unfinished {words : List Token} {word : Keyword}
    (h : Pending (words.map kind) word) (front : List Token) : Unfinished (front ++ words) := by
  generalize hkinds : words.map kind = kinds at h
  cases h with
  | starts =>
    obtain ⟨t, rfl, ht⟩ := List.map_eq_singleton_iff.1 hkinds
    exact ⟨front, t, rfl, .inr (.inl ht)⟩
  | ends =>
    obtain ⟨t, rfl, ht⟩ := List.map_eq_singleton_iff.1 hkinds
    exact ⟨front, t, rfl, .inr (.inr (.inl ht))⟩
  | isNull | isNot =>
    obtain ⟨t, rfl, ht⟩ := List.map_eq_singleton_iff.1 hkinds
    exact ⟨front, t, rfl, .inr (.inr (.inr (.inl ht)))⟩
  | isNotNull =>
    obtain ⟨t, rest, rfl, ht, hrest⟩ := List.map_eq_cons_iff.1 hkinds
    obtain ⟨u, rfl, hu⟩ := List.map_eq_singleton_iff.1 hrest
    refine ⟨front ++ [t], u, by simp, .inr (.inr (.inr (.inr ⟨hu, ?_⟩)))⟩
    rw [List.getLast?_concat, Option.map_some, ht]

end Token

namespace TokenStream

/-- What is left open beyond its line is reported. -/
theorem isOpen_of_not_unclosed {text : List Char}
    (h : ∀ f ∈ (ofChars text).faults,
      f.cause ≠ .unclosed .comment ∧ f.cause ≠ .unclosed .name) :
    ∀ l ∈ Lexeme.ofText text, l.form.isOpen = false := by
  intro l hl
  have hcause : ∀ cause, l.cause? = some cause →
      cause ≠ .unclosed .comment ∧ cause ≠ .unclosed .name := fun cause hcause =>
    h ⟨cause, l.span, l.line, some (String.ofList (l.text.take 1))⟩
      (List.mem_filterMap.2 ⟨l, hl, Option.map_eq_some_iff.2 ⟨cause, hcause, rfl⟩⟩)
  unfold Lexeme.Form.isOpen
  unfold Lexeme.cause? at hcause
  split
  · next hform =>
    rw [hform] at hcause
    exact absurd rfl (hcause _ rfl).1
  · next hform =>
    rw [hform] at hcause
    exact absurd rfl (hcause _ rfl).2
  · rfl

/-- A text with a newline and another text behind it has the tokens of the one and
of the other, and the same is wrong with it as with the two. What belongs to the
other stands further on by the bytes and the lines in front of it. -/
theorem toList_newline {a b : String}
    (hclosed : ∀ f ∈ (ofText a).faults,
      f.cause ≠ .unclosed .comment ∧ f.cause ≠ .unclosed .name)
    (hfinished : ¬ Token.Unfinished (ofText a).tokens) :
    (ofText (a ++ "\n" ++ b)).toList = (ofText a).tokens ++ (ofText b).toList.map
        (Token.shift (Text.byteLength a.toList + 1) (Text.newlines a.toList + 1))
      ∧ (ofText (a ++ "\n" ++ b)).diagnostics = (ofText a).diagnostics ++ (ofText b).diagnostics.map
        (Diagnostic.shift (Text.byteLength a.toList + 1) (Text.newlines a.toList + 1)) := by
  have htext : (a ++ "\n" ++ b).toList = a.toList ++ '\n' :: b.toList := by
    rw [String.toList_append, String.toList_append, List.append_assoc]
    rfl
  have hseam := ofChars_newline (b := b.toList) (isOpen_of_not_unclosed hclosed)
    (Token.behindDot_of_not_unfinished hfinished)
    (fun front words word htokens _ hpending _ =>
      hfinished (htokens ▸ hpending.unfinished front))
  unfold ofText
  rw [htext, hseam]
  constructor
  · simp only [toList, followedBy, List.map_append, List.map_cons, List.map_nil, List.append_assoc]
  · simp only [diagnostics, followedBy, List.map_append, List.map_map]
    congr 1
    refine List.map_congr_left fun f hf => ?_
    obtain ⟨l, -, hl⟩ := List.mem_filterMap.1 hf
    exact Fault.diagnostic_shift (Lexeme.relatedLabels_of_fault? hl) _ _

/-- An illegal character and an open string, with a comment and a quoted name over
two lines in front of them: the next line is read as it is on its own. -/
theorem toList_newline_openString :
    (ofText "/*\n*/\x60a\nb\x60 # 'open\nIS NULL").toList.map
        (fun t => (t.kind, t.span, t.line))
      = [(.identifier "a\nb", ⟨5, 10⟩, 2), (.string "open", ⟨13, 18⟩, 3),
        (.operator .isNull, ⟨19, 26⟩, 4), (.eof, ⟨26, 26⟩, 4)] := by
  have hclosed : ∀ f ∈ (ofText "/*\n*/\x60a\nb\x60 # 'open").faults,
      f.cause ≠ .unclosed .comment ∧ f.cause ≠ .unclosed .name := by decide +kernel
  have hfinished : ¬ Token.Unfinished (ofText "/*\n*/\x60a\nb\x60 # 'open").tokens := by
    rintro ⟨front, last, htokens, hlast⟩
    have hkind : (ofText "/*\n*/\x60a\nb\x60 # 'open").tokens.getLast?.map Token.kind
        = some (.string "open") := by decide +kernel
    rw [htokens, List.getLast?_concat, Option.map_some, Option.some.injEq] at hkind
    rw [hkind] at hlast
    simp at hlast
  have hseam := (toList_newline (b := "IS NULL") hclosed hfinished).1
  have htext : "/*\n*/\x60a\nb\x60 # 'open\nIS NULL"
      = "/*\n*/\x60a\nb\x60 # 'open" ++ "\n" ++ "IS NULL" := by decide +kernel
  rw [htext, hseam]
  decide +kernel

end TokenStream

end Cypher
