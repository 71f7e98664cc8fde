import Cypher.Proofs.Continued.Operand
import Cypher.Proofs.Enclosed.Tokens

/-!
# Looking ahead over a parenthesis put in

The questions about the tokens ahead never ask for a parenthesis but where a
node or a call starts, so one that is put in answers none of them with yes,
save for a call: and where a value is due no call is.
-/

namespace Cypher.Grammar

open Token (Kind)
open Insertion

variable {κ : Insertion} {xs ys zs : List Token} {t paren : Token}

/-! ## Parentheses that answer no -/

section Parenthesis

variable (hparen : paren.kind = .punctuation .lparen ∨ paren.kind = .punctuation .rparen)

include hparen

/-- No parenthesis is part of an arrow. -/
theorem relationshipAhead_spliced (h : relationshipAhead (xs ++ paren :: ys) = true) :
    relationshipAhead (xs ++ zs) = true := by
  match xs with
  | [] => rcases hparen with hparen | hparen <;> simp [relationshipAhead, kindAt, hparen] at h
  | [a] =>
    rcases hparen with hparen | hparen <;>
      simp [relationshipAhead, kindAt, hparen, goesOnAsRelationship] at h
    all_goals split at h <;> simp_all
  | [a, b] =>
    simp only [relationshipAhead, kindAt, List.cons_append, List.nil_append,
      List.getElem?_cons_zero, List.getElem?_cons_succ, Option.map_some] at h ⊢
    split at h
    · exact h
    · rcases hparen with hparen | hparen <;> simp [hparen, goesOnAsRelationship] at h
    · exact h
  | _ :: _ :: _ :: _ => exact h

/-- No parenthesis is the variable of a list comprehension or what follows it. -/
theorem listComprehensionAhead_spliced
    (h : listComprehensionAhead (t :: xs ++ paren :: ys) = true) :
    listComprehensionAhead (t :: xs ++ zs) = true := by
  unfold listComprehensionAhead at h ⊢
  match xs with
  | [] => rcases hparen with hparen | hparen <;> simp [kindAt, hparen] at h
  | [a] =>
    split at h
    · next hin => rcases hparen with hparen | hparen <;> simp [kindAt, hparen] at hin
    · cases h
  | _ :: _ :: _ => exact h

omit hparen in
/-- What is put in opens no node, if it does not stand first. -/
theorem nodeAhead_spliced (hparen : paren.kind = .punctuation .lparen)
    (h : nodeAhead (t :: xs ++ paren :: ys) = true) : nodeAhead (t :: xs ++ zs) = true := by
  match xs with
  | [] => simp [nodeAhead, kindAt, hparen, goesOnAsNode] at h
  | [a] =>
    simp only [nodeAhead, kindAt, List.cons_append, List.nil_append,
      List.getElem?_cons_zero, List.getElem?_cons_succ, Option.map_some] at h ⊢
    split at h
    · simp [hparen, goesOnAsNode] at h
    · exact h
  | _ :: _ :: _ => exact h

end Parenthesis

/-! ## Groups -/

/-- Where the groups that are open are closed in both texts alike, one that is opened
in front is closed in front in both, or behind in both. -/
theorem afterGroup_spliced (hclosing : ∀ n, afterGroup (n + 1) ys = afterGroup (n + 1) zs)
    (n : Nat) (xs : List Token) :
    (∃ between, afterGroup (n + 1) (xs ++ ys) = some (between ++ ys)
        ∧ afterGroup (n + 1) (xs ++ zs) = some (between ++ zs))
      ∨ afterGroup (n + 1) (xs ++ ys) = afterGroup (n + 1) (xs ++ zs) := by
  induction xs generalizing n with
  | nil => exact .inr (hclosing n)
  | cons t xs ih =>
    rw [List.cons_append, List.cons_append, afterGroup, afterGroup]
    split
    · exact ih (n + 1)
    · cases n with
      | zero => exact .inl ⟨xs, rfl, rfl⟩
      | succ n => exact ih n
    · exact ih n

/-- A group that is closed in front of `ys` is told by what is in front of them. -/
theorem afterGroup_of_append {n : Nat} {rest : List Token}
    (h : afterGroup n (xs ++ ys) = some rest) (hle : ys.length ≤ rest.length) :
    ∃ between, afterGroup n xs = some between ∧ rest = between ++ ys := by
  have hshort {n : Nat} {ts rest : List Token} (h : afterGroup n ts = some rest) :
      rest.length < ts.length := by
    induction ts generalizing n with
    | nil => cases h
    | cons t ts ih =>
      rw [List.length_cons]
      unfold afterGroup at h
      split at h
      · exact Nat.lt_succ_of_lt (ih h)
      · split at h
        · cases h
          exact Nat.lt_succ_self _
        · exact Nat.lt_succ_of_lt (ih h)
      · exact Nat.lt_succ_of_lt (ih h)
  cases hxs : afterGroup n xs with
  | some between =>
    rw [afterGroup_append hxs] at h
    exact ⟨between, rfl, (Option.some.inj h).symm⟩
  | none =>
    -- The count goes on in `ys` and stops behind their first token at the soonest.
    exfalso
    induction xs generalizing n with
    | nil => exact Nat.not_lt.2 hle (hshort h)
    | cons t xs ih =>
      rw [List.cons_append] at h
      unfold afterGroup at h hxs
      split at h
      · next hopen => exact ih h (by simpa [hopen] using hxs)
      · next hclose =>
        split at h
        · next hlast => simp [hclose, hlast] at hxs
        · next hmore => exact ih h (by simpa [hclose, hmore] using hxs)
      · next hopen hclose => exact ih h (by simpa [hopen, hclose] using hxs)

/-- A node is told by what its parentheses enclose. -/
theorem nodeAhead_of_closed {rest : List Token} (h : afterGroup 0 xs = some rest)
    (ys : List Token) : nodeAhead (xs ++ ys) = nodeAhead xs := by
  match xs with
  | [] => cases h
  | [a] =>
    have hopen : a.kind ≠ .punctuation .lparen := fun hopen => by simp [afterGroup, hopen] at h
    simp [nodeAhead, kindAt, hopen]
  | [a, b] =>
    by_cases hopen : a.kind = .punctuation .lparen
    · have hclose : b.kind = .punctuation .rparen := by
        by_contra hclose
        simp only [afterGroup, hopen] at h
        split at h <;> simp_all
      simp [nodeAhead, kindAt, hopen, hclose, goesOnAsNode]
    · simp [nodeAhead, kindAt, hopen]
  | _ :: _ :: _ :: _ => rfl

/-! ## Paths -/

theorem patternPredicateAhead_of_closed {rest : List Token} (h : afterGroup 0 xs = some rest)
    (ys : List Token) :
    patternPredicateAhead (xs ++ ys) = (nodeAhead xs && relationshipAhead (rest ++ ys)) := by
  rw [patternPredicateAhead, nodeAhead_of_closed h, afterGroup_append h]

/-- Behind a node, what is put in does not lead on. -/
theorem patternPredicateAhead_behind {rest : List Token} (h : afterGroup 0 xs = some rest)
    (hparen : paren.kind = .punctuation .lparen ∨ paren.kind = .punctuation .rparen)
    (hahead : patternPredicateAhead (xs ++ paren :: ys) = true) :
    patternPredicateAhead (xs ++ zs) = true := by
  rw [patternPredicateAhead_of_closed h, Bool.and_eq_true] at hahead ⊢
  exact ⟨hahead.1, relationshipAhead_spliced hparen hahead.2⟩

/-- Around an operand, what is put in makes no path of anything. -/
theorem Insertion.Opening.patternPredicateAhead_spliced (h : κ.Opening)
    (hparen : κ.paren.kind = .punctuation .lparen)
    (hahead : patternPredicateAhead (xs ++ κ.paren :: κ.behind) = true) :
    patternPredicateAhead (xs ++ κ.seam) = true := by
  unfold patternPredicateAhead at hahead ⊢
  rw [Bool.and_eq_true] at hahead ⊢
  obtain ⟨hnode, hbehind⟩ := hahead
  split at hbehind
  · next rest hclosed =>
    cases xs with
    | nil =>
      rw [List.nil_append] at hclosed
      rw [h.parted rest hclosed] at hbehind
      cases hbehind
    | cons t xs =>
      refine ⟨nodeAhead_spliced hparen hnode, ?_⟩
      have hopen : t.kind = .punctuation .lparen := by
        rw [nodeAhead, Bool.and_eq_true, decide_eq_true_iff] at hnode
        exact Option.some.inj hnode.1
      have hfrom (ts : List Token) : afterGroup 0 (t :: xs ++ ts) = afterGroup 1 (xs ++ ts) := by
        rw [List.cons_append, afterGroup, hopen]
      rw [hfrom] at hclosed ⊢
      rcases afterGroup_spliced h.closing 0 xs with ⟨between, hother, hsame⟩ | hsame
      · rw [hother] at hclosed
        cases hclosed
        rw [hsame]
        exact relationshipAhead_spliced (.inl hparen) hbehind
      · rw [← hsame, hclosed]
        exact hbehind
  · cases hbehind

/-- Where the first node of a path would start, behind the name that the path may have. -/
def pathNode (ahead : List Token) : List Token :=
  match kindAt ahead 0, kindAt ahead 1 with
  | some (.identifier _), some (.operator .eq) => ahead.drop 2
  | _, _ => ahead

theorem patternComprehensionAhead_eq_pathNode (ahead : List Token) :
    patternComprehensionAhead ahead = comprehensionAfterNode (pathNode ahead) := rfl

theorem patternComprehensionAhead_of_path {ahead : List Token}
    (h : patternPredicateAhead (pathNode ahead) = true) : patternComprehensionAhead ahead = true := by
  rw [patternComprehensionAhead_eq_pathNode]
  unfold patternPredicateAhead at h
  unfold comprehensionAfterNode
  rw [Bool.and_eq_true] at h ⊢
  refine ⟨h.1, ?_⟩
  split
  · next rest hclosed =>
    rw [hclosed] at h
    simp [h.2]
  · next hclosed =>
    rw [hclosed] at h
    exact h.2

/-- Neither the name of a path nor its equals sign is put in. -/
theorem patternPredicateAhead_pathNode
    (hparen : paren.kind = .punctuation .lparen ∨ paren.kind = .punctuation .rparen)
    (hspliced : ∀ us, pathNode (xs ++ paren :: ys) = us ++ paren :: ys →
      patternPredicateAhead (us ++ zs) = true) :
    patternPredicateAhead (pathNode (xs ++ zs)) = true := by
  have hbare {ts : List Token} (h : nodeAhead ts = true) : pathNode ts = ts := by
    have hopen := kindAt_of_nodeAhead h
    simp only [pathNode, hopen]
  rcases xs with _ | ⟨a, _ | ⟨b, us⟩⟩
  · have hsame : pathNode ([] ++ paren :: ys) = paren :: ys := by
      unfold pathNode
      rcases hparen with hparen | hparen <;> simp [kindAt, hparen]
    have hahead := hspliced [] hsame
    rw [hbare (Bool.and_eq_true_iff.1 hahead).1]
    exact hahead
  · have hsame : pathNode ([a] ++ paren :: ys) = [a] ++ paren :: ys := by
      unfold pathNode
      rcases hparen with hparen | hparen <;> simp [kindAt, hparen]
    have hahead := hspliced [a] hsame
    rw [hbare (Bool.and_eq_true_iff.1 hahead).1]
    exact hahead
  · -- What is dropped in front of the node does not depend on what follows.
    obtain ⟨vs, hname⟩ : ∃ vs, ∀ ts, pathNode (a :: b :: us ++ ts) = vs ++ ts := by
      by_cases hnamed : ∃ name, a.kind = .identifier name ∧ b.kind = .operator .eq
      · obtain ⟨name, ha, hb⟩ := hnamed
        exact ⟨us, fun ts => by simp [pathNode, kindAt, ha, hb]⟩
      · refine ⟨a :: b :: us, fun ts => ?_⟩
        unfold pathNode
        split
        · next name ha hb => exact absurd ⟨name, Option.some.inj ha, Option.some.inj hb⟩ hnamed
        · rfl
    rw [hname]
    exact hspliced vs (hname _)

/-! ## Calls -/

/-- Behind a name, a parenthesis would open a call; and behind a call no value is due. -/
theorem Outlook.Met.callAhead_spliced {o : Outlook} {brackets : List Bracket}
    (hmet : o.Met ⟨brackets, .call⟩ (xs ++ zs)) (h : callAhead (xs ++ paren :: ys) = true)
    (hother : callAhead (xs ++ zs) = false)
    (hparen : paren.kind = .punctuation .lparen ∨ paren.kind = .punctuation .rparen) :
    paren.kind = .punctuation .lparen ∧ o.Met ⟨brackets, .call⟩ zs := by
  have hcall (t : Token) (ts : List Token) (hdot : t.kind ≠ .punctuation .dot) :
      callAhead (t :: ts) = decide (t.kind = .punctuation .lparen) := by
    cases ts <;> simp [callAhead, hdot]
  induction xs using callAhead.induct with
  | case1 =>
    rw [List.nil_append, hcall _ _ (by rcases hparen with h | h <;> simp [h])] at h
    exact ⟨of_decide_eq_true h, hmet⟩
  | case2 t =>
    have hname : paren.symbolicName? = none := by
      unfold Token.symbolicName?
      rcases hparen with h | h <;> rw [h]
    have hopen : t.kind = .punctuation .lparen := by simpa [callAhead, hname] using h
    rw [List.singleton_append, hcall _ _ (by simp [hopen]), hopen] at hother
    cases hother
  | case3 t part rest hpart ih =>
    rw [List.cons_append, List.cons_append, callAhead, if_pos hpart] at h hother
    refine ih ?_ h hother
    obtain ⟨hdot, hsymbolic⟩ := hpart
    obtain ⟨name, hname⟩ := Option.isSome_iff_exists.1 hsymbolic
    have hdots : Passes t brackets [.call] [] brackets .name := .dot hdot
    have hparts : Passes part brackets [.name] [.name name] brackets .call := .name hname
    have hpoint := hmet.pass
    rw [hdots.scan .call (by simp)] at hpoint
    have hbehind := hpoint.pass
    rwa [hparts.scan .name (by simp)] at hbehind
  | case4 t part rest hpart =>
    rw [List.cons_append, List.cons_append, callAhead, if_neg hpart] at h hother
    rw [h] at hother
    cases hother

/-! ## What has been read was to be seen -/

section Foreseen

variable {expr : Parser Expression} {s : State} {begin : Nat}

theorem leads_relationshipAhead (hs : s.Ended) :
    Leads (relationshipPattern expr) s fun _ _ => relationshipAhead s.ahead = true := by
  have hrest {s : State} (hs : s.Ended) {incoming : Bool} {β : Type}
      {f : Detail → Direction → Parser β} :
      Leads (expect (.operator .minus) >>= fun _ => bracketedDetail expr >>= fun found =>
        farEnd incoming >>= fun direction => f found direction) s fun _ _ =>
          kindAt s.ahead 0 = some (.operator .minus)
            ∧ goesOnAsRelationship (kindAt s.ahead 1) = true := by
    refine Leads.expect fun hminus => ?_
    have hfirst : kindAt s.ahead 0 = some (.operator .minus) := by
      rw [kindAt_current hs (by rw [hminus]; exact nofun), hminus]
    have hs₁ := (State.Reaches.advance s).ended hs
    have hsecond {kind : Kind} (hdue : s.advance.current.kind = kind) (hkind : kind ≠ .eof) :
        kindAt s.ahead 1 = some kind := by
      rw [kindAt_succ, kindAt_current hs₁ (hdue ▸ hkind), hdue]
    refine Leads.bind (Q := fun _ s' => s' = s.advance ∨ goesOnAsRelationship (kindAt s.ahead 1) = true)
      ?_ fun found s' hs' => ?_
    · refine Leads.consume (fun hbracket => fun _ _ _ => .inr ?_) fun _ => Leads.pure (.inl rfl)
      rw [hsecond hbracket nofun]
      rfl
    · refine Leads.bind (Q := fun _ _ => goesOnAsRelationship (kindAt s.ahead 1) = true) ?_
        fun _ _ h _ _ _ => ⟨hfirst, h⟩
      rcases hs' with rfl | h
      · refine Leads.current ?_
        split
        · next harrow =>
          intro _ _ _
          rw [hsecond harrow nofun]
          rfl
        · refine Leads.expect fun hdue => Leads.pure ?_
          rw [hsecond hdue nofun]
          rfl
      · exact fun _ _ _ => h
  refine Leads.start fun begin => ?_
  refine Leads.consume (fun hlt => ?_) fun _ => (hrest hs).mono fun _ _ h => ?_
  · refine (hrest ((State.Reaches.advance s).ended hs)).mono fun _ _ h => ?_
    have hfirst : kindAt s.ahead 0 = some (.operator .lt) := by
      rw [kindAt_current hs (by rw [hlt]; exact nofun), hlt]
    unfold relationshipAhead
    rw [hfirst, kindAt_succ, kindAt_succ, h.1, h.2]
    rfl
  · unfold relationshipAhead
    rw [h.1, h.2]

/-- A label stands behind the colon. -/
theorem leads_labelAhead (hdue : s.current.kind = .punctuation .colon) :
    Leads labelList s fun _ _ => s.advance.current.symbolicName?.isSome = true := by
  have hround : Leads (behind (.punctuation .colon) (symbolicName .label)) s
      fun _ _ => s.advance.current.symbolicName?.isSome = true := by
    refine Leads.consume (fun _ => ?_) fun hother => absurd hdue hother
    refine Leads.bind (Q := fun _ _ => s.advance.current.symbolicName?.isSome = true) ?_
      fun _ _ h _ _ _ => h
    exact Leads.symbolicName fun name hname => by rw [hname]; rfl
  intro labels s' hrun
  obtain ⟨_, _, hmany, -⟩ := bind_eq_ok hrun
  obtain ⟨r, s₁, hfirst, -⟩ := bind_eq_ok (p := behind (.punctuation .colon) (symbolicName .label)) hmany
  exact hround r s₁ hfirst

theorem callAhead_of_lparen (hs : s.Ended) (hdue : s.current.kind = .punctuation .lparen) :
    callAhead s.ahead = true := by
  rw [State.ahead_eq hs (by rw [hdue]; exact nofun)]
  cases s.advance.ahead <;> simp [callAhead, hdue]

theorem leads_callAhead {first : String} (hs : s.Ended) :
    Leads (call expr first begin) s fun _ _ => callAhead (s.ahead.drop 1) = true := by
  have hnames (n : Nat) {s : State} (hs : s.Ended) :
      Leads (manyUpTo (behind (.punctuation .dot) (symbolicName .function)) n) s fun _ s' =>
        s'.current.kind = .punctuation .lparen → callAhead s.ahead = true := by
    induction n generalizing s with
    | zero => exact Leads.pure (callAhead_of_lparen hs)
    | succ n ih =>
      have hround : Leads (behind (.punctuation .dot) (symbolicName .function)) s fun r s' =>
          (r = none → s' = s) ∧ (r ≠ none → s.current.kind = .punctuation .dot
            ∧ s.advance.current.symbolicName?.isSome = true ∧ s' = s.advance.advance) := by
        refine Leads.consume (fun hdot => ?_) fun _ => Leads.pure ⟨fun _ => rfl, absurd rfl⟩
        refine Leads.bind (Q := fun _ s' => s.advance.current.symbolicName?.isSome = true
          ∧ s' = s.advance.advance) (Leads.symbolicName fun name hname => ⟨?_, rfl⟩)
          fun _ s' h => Leads.pure ⟨nofun, fun _ => ⟨hdot, h⟩⟩
        rw [hname]
        rfl
      unfold manyUpTo
      refine hround.bind fun r s₁ h => ?_
      cases r with
      | none =>
        rw [h.1 rfl]
        exact Leads.pure (callAhead_of_lparen hs)
      | some name =>
        obtain ⟨hdot, hname, rfl⟩ := h.2 (Option.some_ne_none _)
        have hs₁ := (State.Reaches.advance s).ended hs
        have hs₂ := (State.Reaches.advance s.advance).ended hs₁
        refine (ih hs₂).bind fun names s₂ h => Leads.pure fun hdue => ?_
        have hne : s.advance.current.kind ≠ .eof := fun heof => by
          rw [Token.symbolicName?, heof] at hname
          cases hname
        rw [State.ahead_eq hs (by simp [hdot]), State.ahead_eq hs₁ hne, callAhead,
          if_pos ⟨hdot, hname⟩]
        exact h hdue
  refine Leads.advance ?_
  rw [List.drop_one, ← State.ahead_advance_eq_tail]
  refine Leads.bind (hnames _ ((State.Reaches.advance s).ended hs)) fun names s' h => ?_
  exact Leads.expect fun hdue _ _ _ => h hdue

theorem leads_listComprehensionAhead (hs : s.Ended) : Leads (listComprehension expr begin) s
    fun _ _ => listComprehensionAhead s.ahead = true := by
  refine Leads.expect fun _ => ?_
  have hs₁ := (State.Reaches.advance s).ended hs
  have hs₂ := (State.Reaches.advance s.advance).ended hs₁
  refine Leads.bind (Q := fun _ s' => s' = s.advance.advance
    ∧ ∃ name, kindAt s.ahead 1 = some (.identifier name)) ?_ fun _ s' hs' => ?_
  · refine Leads.variableName fun name hname => ⟨rfl, name, ?_⟩
    rw [kindAt_succ, kindAt_current hs₁ (by rw [hname]; exact nofun), hname]
  · obtain ⟨rfl, name, hname⟩ := hs'
    refine Leads.expect fun hin _ _ _ => ?_
    have hthird : kindAt s.ahead 2 = some (.keyword .IN) := by
      rw [kindAt_succ, kindAt_succ, kindAt_current hs₂ (by rw [hin]; exact nofun), hin]
    unfold listComprehensionAhead
    rw [hname, hthird]

/-- What follows a group is known when it is entered. -/
theorem leads_closedGroup (hexpr : CoversValues expr) (hs : s.Bounded) :
    Leads (parenthesized expr) s fun _ s' => afterGroup 0 s.ahead = some s'.ahead := by
  refine Leads.expect fun hdue => ?_
  have hbracket : ∀ m ∈ [Mode.value],
      (if m = .call then .arguments else if nodeAhead s.ahead then .node else .group)
        = if nodeAhead s.ahead then Bracket.node else .group := by
    intro m hm
    rw [List.mem_singleton.1 hm, if_neg nofun]
  refine (hexpr (by split <;> simp) (hs.scanned.enter hdue _ hbracket)).bind fun inner s' h' => ?_
  exact Leads.expect fun hclosed => Leads.pure (h'.leave hclosed).1

theorem leads_patternComprehensionAhead (hexpr : CoversValues expr) (hs : s.Bounded) :
    Leads (patternComprehension expr begin) s fun _ _ =>
      patternComprehensionAhead (s.ahead.drop 1) = true := by
  refine Leads.expect fun _ => ?_
  rw [List.drop_one, ← State.ahead_advance_eq_tail]
  have hpath : Leads (pattern expr) s.advance fun p s' => ∃ node rest,
      patternComprehensionAhead s.advance.ahead = comprehensionAfterNode node
        ∧ nodeAhead node = true ∧ afterGroup 0 node = some rest
        ∧ (p.chain ≠ [] ↔ relationshipAhead rest = true)
        ∧ (p.chain = [] → s'.Ended ∧ rest = s'.ahead) := by
    refine Leads.start fun begin => (leads_pathNameAhead hs.advance).bind fun name s₁ h => ?_
    obtain ⟨hs₁, -, hname⟩ := h
    refine (leads_foreseen hexpr hs₁).mono fun p s' h => ?_
    obtain ⟨hnode, rest, hclosed, hmore, hlast⟩ := h
    exact ⟨_, rest, hname, hnode, hclosed, hmore, hlast⟩
  refine hpath.bind fun p s₁ h => ?_
  obtain ⟨node, rest, hahead, hnode, hclosed, hmore, hlast⟩ := h
  rw [hahead]
  unfold comprehensionAfterNode
  rw [hnode, hclosed]
  by_cases hchain : p.chain = []
  · obtain ⟨hended, rfl⟩ := hlast hchain
    refine Leads.bind (Q := fun _ s' => s₁.current.kind = .keyword .WHERE ∨ s' = s₁) ?_
      fun filter s₂ hs₂ => ?_
    · exact Leads.consume (fun hwhere _ _ _ => .inl hwhere) fun _ => Leads.pure (.inr rfl)
    · rcases hs₂ with hwhere | rfl
      · intro _ _ _
        simp [kindAt_current hended (by rw [hwhere]; exact nofun), hwhere]
      · refine Leads.expect fun hbar _ _ _ => ?_
        simp [kindAt_current hended (by rw [hbar]; exact nofun), hbar]
  · intro _ _ _
    simp [hmore.1 hchain]

end Foreseen

end Cypher.Grammar
