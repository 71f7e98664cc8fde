import Cypher.Proofs.Composition
import Cypher.Proofs.Disguised.Query
import Cypher.Proofs.Lexing.Reworded

/-!
# Reserved words for names

Where a name is due, every reserved word is one. Let a bare name of an accepted
text stand at such a place, and put a reserved word there in its stead. The text
is accepted again, and the tree is the same save for that name and for spans.

The proof goes by way of a disguise: first the token of the name is made to look
like that of the word, which the grammar is blind to, and then it is made to spell
the word, which changes the one name and no decision.

There is one exception. Operators of several words are put together before the
grammar is asked, so a word that begins one, with the rest of it behind, is taken
for an operator. Only behind a point is it left alone.
-/

namespace Cypher

open Grammar (Outlook)
open Token (Kind)

namespace Scan

/-! ## The scan and the disguise -/

variable {f : Token → Token} {o : Outlook} {σ : Scan} {t t' : Token} {ahead rest rest' : List Token}

section Disguised

variable (hf : Disguise f o.tokens)

include hf

theorem pass_disguise (hmet : o.Met σ (t :: rest)) :
    σ.pass (f t) (rest.map f) = σ.pass t rest := by
  by_cases hsame : f t = t
  · rw [hsame]
    have hnode := hmet.nodeAhead_disguise hf
    rw [List.map_cons, hsame] at hnode
    have hlink : Grammar.relationshipAhead (t :: rest.map f).tail
        = Grammar.relationshipAhead (t :: rest).tail := Grammar.relationshipAhead_disguise hf rest
    unfold pass
    split
    all_goals try rfl
    next mark hmark =>
      cases mark with
      | lparen => simp only [passMark, hnode]
      | rparen =>
        dsimp only [passMark]
        rw [hlink]
      | _ => rfl
  · obtain ⟨name, word, hname, hword⟩ := (hf.look t).resolve_left hsame
    obtain ⟨passed, htokens, rfl⟩ := hmet
    have hmode : (({} : Scan).passAll passed (t :: rest)).mode = .name
        ∨ (({} : Scan).passAll passed (t :: rest)).mode = .entry :=
      (hf.place passed t rest htokens hsame).imp_right And.left
    rw [hword, pass, pass, hname]
    exact if_pos hmode

/-- A scan of the disguised tokens finds the same leaves. -/
theorem leaves_disguise (hmet : o.Met σ ahead) : σ.leaves (ahead.map f) = σ.leaves ahead := by
  induction ahead generalizing σ with
  | nil => rfl
  | cons t rest ih =>
    rw [List.map_cons, leaves, leaves, pass_disguise hf hmet, ih hmet.pass]

theorem passAll_disguise {passed : List Token} (hmet : o.Met σ (passed ++ rest)) :
    σ.passAll (passed.map f) (rest.map f) = σ.passAll passed rest := by
  induction passed generalizing σ with
  | nil => rfl
  | cons t passed ih =>
    rw [List.cons_append] at hmet
    rw [List.map_cons, passAll, passAll, ← List.map_append, pass_disguise hf hmet, ih hmet.pass]

end Disguised

end Scan

namespace Disguise

variable {f : Token → Token} {tokens : List Token} (hf : Disguise f tokens)

include hf

theorem leaves_eq : ({} : Scan).leaves (tokens.map f) = ({} : Scan).leaves tokens :=
  Scan.leaves_disguise (o := ⟨tokens, [], fun _ => none, 0⟩) hf ⟨[], rfl, rfl⟩

theorem passAll_eq {passed rest : List Token} (htokens : tokens = passed ++ rest) :
    ({} : Scan).passAll (passed.map f) (rest.map f) = ({} : Scan).passAll passed rest :=
  Scan.passAll_disguise (o := ⟨tokens, [], fun _ => none, 0⟩) hf ⟨[], htokens, rfl⟩

end Disguise

namespace Scan

variable {σ : Scan} {t t' : Token} {ahead rest rest' : List Token}

/-! ## The scan and the text of words -/

theorem pass_congr (hkind : t.kind = t'.kind) (htext : t.text = t'.text)
    (hrest : rest.map Token.kind = rest'.map Token.kind) : σ.pass t rest = σ.pass t' rest' := by
  have hkinds : (t :: rest).map Token.kind = (t' :: rest').map Token.kind := by
    rw [List.map_cons, List.map_cons, hkind, hrest]
  have hlink : Grammar.relationshipAhead (t :: rest).tail
      = Grammar.relationshipAhead (t' :: rest').tail := Grammar.relationshipAhead_of_kinds hrest
  unfold pass
  rw [hkind, htext]
  split
  all_goals try rfl
  next mark _ =>
    cases mark with
    | lparen => simp only [passMark, Grammar.nodeAhead_congr hkinds]
    | rparen =>
      dsimp only [passMark]
      rw [hlink]
    | _ => rfl

/-- What a scan looks at of a token. -/
def sight (t : Token) : Kind × String := (t.kind, t.text)

theorem kinds_of_sight (h : rest.map sight = rest'.map sight) :
    rest.map Token.kind = rest'.map Token.kind := by
  have hfst := congrArg (List.map Prod.fst) h
  rwa [List.map_map, List.map_map] at hfst

theorem leaves_congr (h : ahead.map sight = rest.map sight) : σ.leaves ahead = σ.leaves rest := by
  induction ahead generalizing σ rest with
  | nil =>
    rw [List.map_nil, eq_comm, List.map_eq_nil_iff] at h
    rw [h]
  | cons t ahead ih =>
    rw [List.map_cons, eq_comm, List.map_eq_cons_iff] at h
    obtain ⟨t', rest', rfl, ht, hrest⟩ := h
    obtain ⟨hkind, htext⟩ := Prod.mk.inj ht
    rw [leaves, leaves, pass_congr hkind.symm htext.symm (kinds_of_sight hrest.symm),
      ih hrest.symm]

/-- Where a name is due, another text of a word is another leaf, and nothing else. -/
theorem leaves_reworded {passed : List Token} {w : Keyword} (hkind : t.kind = .keyword w)
    (hkind' : t'.kind = .keyword w) (hrest : rest.map sight = rest'.map sight)
    (hmode : (σ.passAll passed (t :: rest)).mode = .name
      ∨ (σ.passAll passed (t :: rest)).mode = .entry) :
    ∃ front, σ.leaves (passed ++ t :: rest)
        = front ++ .name t.text :: (σ.passAll (passed ++ [t]) rest).leaves rest
      ∧ σ.leaves (passed ++ t' :: rest')
        = front ++ .name t'.text :: (σ.passAll (passed ++ [t]) rest).leaves rest := by
  induction passed generalizing σ with
  | nil =>
    have hpass (u : Token) (hu : u.kind = .keyword w) (ahead : List Token) :
        σ.pass u ahead = ([.name u.text], σ.passName) := by
      rw [pass, hu]
      exact if_pos hmode
    refine ⟨[], ?_, ?_⟩
    · simp only [List.nil_append, leaves, passAll, hpass t hkind, List.singleton_append]
    · simp only [List.nil_append, leaves, passAll, hpass t hkind, hpass t' hkind',
        List.singleton_append, leaves_congr hrest]
  | cons u passed ih =>
    obtain ⟨front, hfirst, hsecond⟩ := ih hmode
    have hsame : σ.pass u (passed ++ t' :: rest') = σ.pass u (passed ++ t :: rest) := by
      refine pass_congr rfl rfl ?_
      rw [List.map_append, List.map_append, List.map_cons, List.map_cons, hkind, hkind',
        kinds_of_sight hrest]
    have hbehind : (σ.passAll (u :: passed ++ [t]) rest)
        = (σ.pass u (passed ++ t :: rest)).2.passAll (passed ++ [t]) rest := by
      rw [List.cons_append, passAll, List.append_assoc, List.singleton_append]
    refine ⟨(σ.pass u (passed ++ t :: rest)).1 ++ front, ?_, ?_⟩
    · rw [List.cons_append, leaves, hbehind, hfirst, List.append_assoc]
    · rw [List.cons_append, leaves, hbehind, hsame, hsecond, List.append_assoc]

end Scan

/-! ## One token in disguise -/

/-- The one token looks like the word. -/
def Token.mask (t : Token) (w : Keyword) (u : Token) : Token :=
  if u = t then { t with kind := .keyword w } else u

@[simp] theorem Token.mask_self (t : Token) (w : Keyword) :
    t.mask w t = { t with kind := .keyword w } := if_pos rfl

theorem Token.map_mask {t : Token} {us : List Token} (h : t ∉ us) (w : Keyword) :
    us.map (t.mask w) = us :=
  (List.map_congr_left fun _ hu => if_neg (ne_of_mem_of_not_mem hu h)).trans us.map_id

section Masked

variable {passed rest : List Token} {t : Token} {w : Keyword}
  (hbare : t.kind = .identifier t.text) (honce : t ∉ passed ∧ t ∉ rest)

include honce

include hbare

theorem disguise_mask (hnames : (({} : Scan).passAll passed (t :: rest)).Names rest) :
    Disguise (t.mask w) (passed ++ t :: rest) where
  look u := by
    unfold Token.mask
    split
    · next heq =>
      subst heq
      exact .inr ⟨u.text, w, hbare, rfl⟩
    · exact .inl rfl
  place before u behind htokens hchanged := by
    have hhere : u = t := by
      by_contra hother
      exact hchanged (if_neg hother)
    subst hhere
    obtain ⟨rfl, -, rfl⟩ := (List.append_cons_inj_of_notMem honce.1 honce.2).1 htokens
    exact hnames

end Masked

/-! ## Renaming -/

/-- Spans and the names that a reserved word could spell are left out. -/
def Recasting.nameless : Recasting := ⟨fun _ => 0, fun _ => ""⟩

/-- Behind a word no name is due, unless it is `CALL`. -/
theorem Scan.not_names_passKeyword {w : Keyword} (hw : w ≠ .CALL) (σ : Scan) (text : String)
    (rest : List Token) : ¬ (σ.passKeyword w text).2.Names rest := by
  have hmode : (σ.passKeyword w text).2.mode ≠ .name ∧ (σ.passKeyword w text).2.mode ≠ .entry := by
    unfold passKeyword
    split
    · unfold passName
      show (if σ.mode = .entry then Mode.key else .call) ≠ _
        ∧ (if σ.mode = .entry then Mode.key else .call) ≠ _
      split <;> simp
    · cases w <;> first | exact absurd rfl hw | exact ⟨by simp [toMode], by simp [toMode]⟩
  exact fun hnames => hnames.elim hmode.1 fun hentry => hmode.2 hentry.1

/-- So where a name is due, no operator of several words has begun. -/
theorem Scan.Names.not_pending {passed rest ahead : List Token}
    (hnames : (({} : Scan).passAll passed ahead).Names rest) :
    ∀ front words v, passed = front ++ words → ¬ Token.Pending (words.map Token.kind) v := by
  rintro front words v rfl hpending
  have hlast : ∃ others last w, words = others ++ [last] ∧ last.kind = .keyword w ∧ w ≠ .CALL := by
    generalize hkinds : words.map Token.kind = kinds at hpending
    cases hpending with
    | starts | ends | isNull | isNot =>
      obtain ⟨last, rfl, hlast⟩ := List.map_eq_singleton_iff.1 hkinds
      exact ⟨[], last, _, rfl, hlast, by simp⟩
    | isNotNull =>
      obtain ⟨u, us, rfl, -, hus⟩ := List.map_eq_cons_iff.1 hkinds
      obtain ⟨last, rfl, hlast⟩ := List.map_eq_singleton_iff.1 hus
      exact ⟨[u], last, _, rfl, hlast, by simp⟩
  obtain ⟨others, last, w, rfl, hkind, hw⟩ := hlast
  rw [← List.append_assoc, Scan.passAll_concat, Scan.pass, hkind] at hnames
  exact Scan.not_names_passKeyword hw _ _ _ hnames

/-- Names apart, what the grammar compares of a token is what a scan looks at. -/
theorem map_viewed_of_sight {ts us : List Token} (h : ts.map Scan.sight = us.map Scan.sight)
    (spell : String → String) : ts.map (Grammar.viewed spell) = us.map (Grammar.viewed spell) := by
  have hfactor : Grammar.viewed spell
      = (fun p => Grammar.viewed spell ⟨p.1, ⟨0, 0⟩, 0, p.2⟩) ∘ Scan.sight := rfl
  rw [hfactor, ← List.map_map, h, List.map_map]

/-- Where a name is due, any reserved word will do. Put the word in the place of a bare
name of an accepted text, where the scan finds that a name is due, and let it begin no
operator of several words with those behind it. Then the text is accepted, and the tree
differs in the one name and in spans: leaving these out the trees are the same, and so
are the leaves in front of the name and behind it. -/
theorem parse_reworded {text : String} {config : Config} {q : Query}
    (hparse : parse text config = .ok q) {passed rest : List Token} {t : Token}
    (htokens : (TokenStream.ofText text).tokens = passed ++ t :: rest)
    (hbare : t.kind = .identifier t.text)
    (hnames : (({} : Scan).passAll passed (t :: rest)).Names rest) {word : String} {w : Keyword}
    (hword : Keyword.ofName? word = some w) (hbegins : ¬ Token.Begins text.toList passed t w rest) :
    ∃ q', parse (String.ofList (Text.replace text.toList t.span word.toList)) config = .ok q'
      ∧ q'.recast .nameless = q.recast .nameless
      ∧ ∃ front, q.leaves
          = front ++ .name t.text :: (({} : Scan).passAll (passed ++ [t]) rest).leaves rest
        ∧ q'.leaves
          = front ++ .name word :: (({} : Scan).passAll (passed ++ [t]) rest).leaves rest := by
  obtain ⟨hfaults, s, hrun, hclean⟩ := parse_eq_ok_iff_query.1 hparse
  obtain ⟨span, line, later, htokens', hlater, hfaults'⟩ := TokenStream.tokens_reworded htokens hbare
    hfaults hword hnames.not_pending hbegins
  rw [String.ofList_toList] at htokens'
  generalize htext : String.ofList (Text.replace text.toList t.span word.toList) = text'
  have hstream : TokenStream.ofText text' = TokenStream.ofChars (Text.replace text.toList t.span
      word.toList) := by
    rw [← htext, TokenStream.ofText, String.toList_ofList]
  rw [← hstream] at htokens' hfaults'
  have honce := (htokens ▸ TokenStream.apart_tokens _ : Token.Apart (passed ++ t :: rest)).notMem
  have hdisguise : Disguise (t.mask w) (TokenStream.ofText text).tokens := by
    rw [htokens]
    exact disguise_mask hbare honce hnames
  have hmask : (TokenStream.ofText text).tokens.map (t.mask w)
      = passed ++ { t with kind := .keyword w } :: rest := by
    rw [htokens, List.map_append, List.map_cons, Token.map_mask honce.1, Token.map_mask honce.2,
      Token.mask_self]
  -- In disguise the text is read as before.
  have hstart := TokenStream.atStart text
  have hmasked := Grammar.blind_query rfl hdisguise hstart q s hrun
  -- From there it is a step to the other text, which spells the name differently.
  have haligned : Grammar.Aligned (fun _ => "")
      ((TokenStream.ofText text).opening.disguise (t.mask w)) (TokenStream.ofText text').opening := by
    refine ⟨?_, ?_, rfl, rfl⟩
    · show ((TokenStream.ofText text).tokens.map (t.mask w)).map _
        = (TokenStream.ofText text').tokens.map _
      rw [hmask, htokens', List.map_append, List.map_append, List.map_cons, List.map_cons,
        map_viewed_of_sight hlater]
      rfl
    · show Grammar.viewed _ (t.mask w (TokenStream.ofText text).eof) = _
      rw [show t.mask w (TokenStream.ofText text).eof = (TokenStream.ofText text).eof from
        hstart.fixed_eof hdisguise]
      rfl
  obtain ⟨q', s', hrun', hsame, hbehind⟩ := Grammar.reread
    (Grammar.Comparison.Agrees.query (Grammar.respelling_lawful _ _)
      fun h => absurd h (Nat.lt_irrefl _)) haligned hmasked
  have hclean' : s'.faults = [] := by
    have hcodes := hbehind.codes
    rwa [show (s.disguise (t.mask w)).faults = [] from hclean, List.map_nil, eq_comm,
      List.map_eq_nil_iff] at hcodes
  refine ⟨q', parse_eq_ok_iff_query.2 ⟨hfaults', s', hrun', hclean'⟩, hsame, ?_⟩
  -- The leaves are those that a scan finds, of the one text in disguise.
  have hleaves : q.leaves = ({} : Scan).leaves (passed ++ { t with kind := .keyword w } :: rest) :=
    (Grammar.leads_query rfl hstart q s hrun).trans (hmask ▸ hdisguise.leaves_eq.symm)
  have hleaves' : q'.leaves = ({} : Scan).leaves (TokenStream.ofText text').tokens :=
    Grammar.leads_query rfl (TokenStream.atStart text') q' s' hrun'
  have hpassed := hdisguise.passAll_eq htokens
  have hbehind := hdisguise.passAll_eq (htokens.trans (List.append_cons passed t rest))
  rw [List.map_cons, Token.map_mask honce.1, Token.map_mask honce.2, Token.mask_self] at hpassed
  rw [List.map_append, List.map_singleton, Token.map_mask honce.1, Token.map_mask honce.2,
    Token.mask_self] at hbehind
  rw [hleaves, hleaves', htokens', ← hbehind]
  refine Scan.leaves_reworded rfl rfl hlater.symm ?_
  rw [hpassed]
  exact hnames.imp_right And.left

/-- The key of a property, and a `WITH` behind it: no `STARTS WITH` is made of them. -/
theorem parse_reworded_keyBehindPoint :
    ∃ q q', parse "MATCH (n) WHERE n.ok WITH n RETURN n" = .ok q
      ∧ parse "MATCH (n) WHERE n.starts WITH n RETURN n" = .ok q'
      ∧ q'.recast .nameless = q.recast .nameless := by
  obtain ⟨q, hq⟩ := exists_parse_of_isOk "MATCH (n) WHERE n.ok WITH n RETURN n"
    (by decide +kernel)
  have htokens : (TokenStream.ofText "MATCH (n) WHERE n.ok WITH n RETURN n").tokens
      = (TokenStream.ofText "MATCH (n) WHERE n.ok WITH n RETURN n").tokens.take 7
        ++ ⟨.identifier "ok", ⟨18, 20⟩, 1, "ok"⟩
        :: (TokenStream.ofText "MATCH (n) WHERE n.ok WITH n RETURN n").tokens.drop 8 := by
    decide +kernel
  obtain ⟨q', hq', hsame, -⟩ := parse_reworded hq htokens rfl (by decide +kernel)
    (show Keyword.ofName? "starts" = some .STARTS by decide +kernel) (by decide +kernel)
  have htext : String.ofList (Text.replace "MATCH (n) WHERE n.ok WITH n RETURN n".toList ⟨18, 20⟩
      "starts".toList) = "MATCH (n) WHERE n.starts WITH n RETURN n" := by decide +kernel
  exact ⟨q, q', hq, htext ▸ hq', hsame⟩

/-- A label, and a `WITH` behind it: they are taken for an operator. -/
theorem exists_name_refused :
    ∃ text q passed t rest, parse text = .ok q
      ∧ (TokenStream.ofText text).tokens = passed ++ t :: rest ∧ t.kind = .identifier t.text
      ∧ (({} : Scan).passAll passed (t :: rest)).Names rest
      ∧ Keyword.ofName? "STARTS" = some .STARTS
      ∧ ¬ ∃ q', parse (String.ofList (Text.replace text.toList t.span "STARTS".toList)) = .ok q' := by
  obtain ⟨q, hq⟩ := exists_parse_of_isOk "MATCH (n) SET n:Ok WITH n RETURN n"
    (by decide +kernel)
  refine ⟨"MATCH (n) SET n:Ok WITH n RETURN n", q,
    (TokenStream.ofText "MATCH (n) SET n:Ok WITH n RETURN n").tokens.take 7,
    ⟨.identifier "Ok", ⟨16, 18⟩, 1, "Ok"⟩,
    (TokenStream.ofText "MATCH (n) SET n:Ok WITH n RETURN n").tokens.drop 8, hq, by decide +kernel, rfl,
    by decide +kernel, by decide +kernel, ?_⟩
  rintro ⟨q', hq'⟩
  have hrefused : (parse (String.ofList (Text.replace "MATCH (n) SET n:Ok WITH n RETURN n".toList
      ⟨16, 18⟩ "STARTS".toList))).isOk = false := by decide +kernel
  rw [hq'] at hrefused
  cases hrefused

end Cypher
