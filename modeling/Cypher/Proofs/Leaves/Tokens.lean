import Cypher.Proofs.Leaves.Basic

/-!
# The tokens that a scan passes

What each token makes of the modes in front of it, and from that what the
parsers of single tokens and of rows of items read.
-/

namespace Cypher

/-- Where it is not a name, the word is no leaf and makes nothing in particular
of the next token. -/
def Keyword.isPlain : Keyword → Bool
  | .TRUE | .FALSE | .NULL | .EXISTS | .CALL => false
  | _ => true

namespace Grammar

open Token (Kind)

/-! ## Passing tokens -/

namespace Passes

variable {brackets : List Bracket} {modes : List Mode} {t : Token}

theorem of_kind {kind : Kind} {leaves : List Leaf} {brackets' : List Bracket} {mode : Mode}
    (ht : t.kind = kind) (hkind : kind.isOrdinary)
    (hscan : ∀ m ∈ modes, ∀ rest,
      (⟨brackets, m⟩ : Scan).pass ⟨kind, t.span, t.line, t.text⟩ rest = (leaves, ⟨brackets', mode⟩)) :
    Passes t brackets modes leaves brackets' mode := by
  subst ht
  exact ⟨hkind, hscan⟩

/-- Where a name is due, a reserved word is one. -/
theorem symbolic {name : String} {m mode : Mode} (ht : t.symbolicName? = some name)
    (hm : m = .name ∨ m = .entry) (hmode : (⟨brackets, m⟩ : Scan).passName = ⟨brackets, mode⟩) :
    Passes t brackets [m] [.name name] brackets mode := by
  unfold Token.symbolicName? at ht
  split at ht
  · next hkind =>
    cases ht
    refine of_kind hkind rfl fun m' hm' rest => ?_
    rw [List.mem_singleton.1 hm', Scan.pass, hmode]
  · next hkind =>
    cases ht
    refine of_kind hkind rfl fun m' hm' rest => ?_
    have hpass (word : Keyword) (text : String) :
        (⟨brackets, m⟩ : Scan).passKeyword word text = ([.name text], ⟨brackets, mode⟩) := by
      unfold Scan.passKeyword
      rw [if_pos hm, hmode]
    rw [List.mem_singleton.1 hm']
    exact hpass _ _
  · cases ht

theorem name {name : String} (ht : t.symbolicName? = some name) :
    Passes t brackets [.name] [.name name] brackets .call := symbolic ht (.inl rfl) rfl

/-- A name at the start of an entry is a key. -/
theorem key {name : String} (ht : t.symbolicName? = some name) :
    Passes t brackets [.entry] [.name name] brackets .key := symbolic ht (.inr rfl) rfl

theorem identifier {name : String} (hmodes : .entry ∉ modes) (ht : t.kind = .identifier name) :
    Passes t brackets modes [.name name] brackets .call := by
  refine of_kind ht rfl fun m hm rest => ?_
  have hentry : m ≠ .entry := fun h => hmodes (h ▸ hm)
  simp [Scan.pass, Scan.passName, Scan.toMode, hentry]

theorem parameter {name : String} (ht : t.kind = .parameter name) :
    Passes t brackets modes [.parameter name] brackets .value :=
  of_kind ht rfl fun _ _ _ => rfl

/-- A whole number, where it bounds no hops. -/
theorem integer {digits : String} (hbrackets : brackets.head? ≠ some .detail)
    (ht : t.kind = .integer digits) : Passes t brackets modes [.number digits] brackets .value := by
  refine of_kind ht rfl fun m _ rest => ?_
  simp [Scan.pass, Scan.within, Scan.toMode, hbrackets]

theorem bound {digits : String} (ht : t.kind = .integer digits) :
    Passes t (.detail :: brackets) modes [] (.detail :: brackets) .value :=
  of_kind ht rfl fun _ _ _ => rfl

theorem float {digits : String} (ht : t.kind = .float digits) :
    Passes t brackets modes [.number digits] brackets .value :=
  of_kind ht rfl fun _ _ _ => rfl

theorem string {value : String} (ht : t.kind = .string value) :
    Passes t brackets modes [.string value] brackets .value :=
  of_kind ht rfl fun _ _ _ => rfl

/-- A reserved word that is no name. -/
theorem keyword {word : Keyword} (hmodes : .name ∉ modes ∧ .entry ∉ modes)
    (ht : t.kind = .keyword word) {leaves : List Leaf} {mode : Mode}
    (hword : ∀ m, m ≠ .name → m ≠ .entry →
      (⟨brackets, m⟩ : Scan).passKeyword word t.text = (leaves, ⟨brackets, mode⟩)) :
    Passes t brackets modes leaves brackets mode :=
  of_kind ht rfl fun m hm _ =>
    hword m (fun h => hmodes.1 (h ▸ hm)) (fun h => hmodes.2 (h ▸ hm))

theorem plain {word : Keyword} (hword : word.isPlain) (hmodes : .name ∉ modes ∧ .entry ∉ modes)
    (ht : t.kind = .keyword word) : Passes t brackets modes [] brackets .value := by
  refine keyword hmodes ht fun m hname hentry => ?_
  have hneither : ¬ (m = .name ∨ m = .entry) := not_or.2 ⟨hname, hentry⟩
  unfold Scan.passKeyword
  rw [if_neg hneither]
  cases word <;> first | rfl | cases hword

/-- An operator outside an arrow. A bar is one, unless it separates types. -/
theorem operator {op : Operator} (hop : op ≠ .pipe ∨ brackets.head? ≠ some .detail)
    (hmodes : .edge ∉ modes) (ht : t.kind = .operator op) :
    Passes t brackets modes [] brackets .value := by
  refine of_kind ht rfl fun m hm rest => ?_
  have hbar : ¬ (op = .pipe ∧ brackets.head? = some .detail) := fun h => hop.elim (· h.1) (· h.2)
  have hedge : m ≠ .edge := fun h => hmodes (h ▸ hm)
  simp [Scan.pass, Scan.passOperator, Scan.within, Scan.toMode, hbar, hedge]

/-- A part of an arrow. -/
theorem arrow {op : Operator} (hop : op = .minus ∨ op = .lt ∨ op = .arrow)
    (ht : t.kind = .operator op) : Passes t brackets [.edge] [] brackets .edge := by
  refine of_kind ht rfl fun m hm rest => ?_
  rw [List.mem_singleton.1 hm]
  rcases hop with rfl | rfl | rfl <;> rfl

/-- A bar that separates types. -/
theorem bar (ht : t.kind = .operator .pipe) :
    Passes t (.detail :: brackets) modes [] (.detail :: brackets) .name :=
  of_kind ht rfl fun _ _ _ => rfl

theorem comma (hbrackets : brackets.head? ≠ some .map) (ht : t.kind = .punctuation .comma) :
    Passes t brackets modes [] brackets .value := by
  refine of_kind ht rfl fun m _ rest => ?_
  simp [Scan.pass, Scan.passMark, Scan.within, Scan.toMode, hbrackets]

/-- A comma between two entries. -/
theorem entry (ht : t.kind = .punctuation .comma) :
    Passes t (.map :: brackets) modes [] (.map :: brackets) .entry :=
  of_kind ht rfl fun _ _ _ => rfl

theorem dot (ht : t.kind = .punctuation .dot) : Passes t brackets modes [] brackets .name :=
  of_kind ht rfl fun _ _ _ => rfl

theorem colon (hmodes : .key ∉ modes) (ht : t.kind = .punctuation .colon) :
    Passes t brackets modes [] brackets .name := by
  refine of_kind ht rfl fun m hm rest => ?_
  have hkey : m ≠ .key := fun h => hmodes (h ▸ hm)
  simp [Scan.pass, Scan.passMark, Scan.toMode, hkey]

/-- The colon behind a key. -/
theorem assigned (ht : t.kind = .punctuation .colon) :
    Passes t brackets [.key] [] brackets .value := by
  refine of_kind ht rfl fun m hm rest => ?_
  rw [List.mem_singleton.1 hm]
  rfl

theorem lbrace (ht : t.kind = .punctuation .lbrace) :
    Passes t brackets modes [] (.map :: brackets) .entry :=
  of_kind ht rfl fun _ _ _ => rfl

theorem rbrace {bracket : Bracket} (ht : t.kind = .punctuation .rbrace) :
    Passes t (bracket :: brackets) modes [] brackets .value :=
  of_kind ht rfl fun _ _ _ => rfl

theorem lbracket (hmodes : .edge ∉ modes) (ht : t.kind = .punctuation .lbracket) :
    Passes t brackets modes [] (.list :: brackets) .value := by
  refine of_kind ht rfl fun m hm rest => ?_
  have hedge : m ≠ .edge := fun h => hmodes (h ▸ hm)
  simp [Scan.pass, Scan.passMark, Scan.enter, hedge]

/-- The bracket of a relationship. -/
theorem detail (ht : t.kind = .punctuation .lbracket) :
    Passes t brackets [.edge] [] (.detail :: brackets) .value := by
  refine of_kind ht rfl fun m hm rest => ?_
  rw [List.mem_singleton.1 hm]
  rfl

theorem rbracket {bracket : Bracket} (ht : t.kind = .punctuation .rbracket) :
    Passes t (bracket :: brackets) modes [] brackets .value :=
  of_kind ht rfl fun _ _ _ => rfl

end Passes

/-! ## Reading between two places -/

/-- From any of the modes before it to one of those behind it, the parser reads
the leaves of its answer. -/
def Covers (p : Parser α) (leaves : α → List Leaf) (brackets : List Bracket)
    (modes modes' : List Mode) : Prop :=
  ∀ ⦃o read s⦄, At o read brackets modes s →
    Leads p s fun a => At o (read ++ leaves a) brackets modes'

section Single

variable {o : Outlook} {read : List Leaf} {brackets brackets' : List Bracket}
  {modes : List Mode} {mode : Mode} {s : State}

theorem At.expect {kind : Kind} (h : At o read brackets modes s)
    (hpasses : ∀ {t : Token}, t.kind = kind → Passes t brackets modes [] brackets' mode) :
    Leads (expect kind) s fun _ => At o read brackets' [mode] := by
  intro _ s' hrun
  obtain ⟨hdue, rfl⟩ := expect_eq_ok hrun
  exact h.advance_nil (hpasses hdue)

theorem covers_symbolicName (role : NameRole) :
    Covers (symbolicName role) (fun name => [.name name]) brackets [.name] [.call] :=
  fun _ _ _ h => Leads.symbolicName fun _ hname => h.advance (.name hname)

theorem covers_key (role : NameRole) :
    Covers (symbolicName role) (fun name => [.name name]) brackets [.entry] [.key] :=
  fun _ _ _ h => Leads.symbolicName fun _ hname => h.advance (.key hname)

theorem covers_variableName (hmodes : .entry ∉ modes) (role : VariableRole) :
    Covers (variableName role) (fun name => [.name name]) brackets modes [.call] :=
  fun _ _ _ h => Leads.variableName fun _ hname => h.advance (.identifier hmodes hname)

theorem covers_optionalVariable (hmodes : .entry ∉ modes) :
    Covers optionalVariable leavesOfName brackets modes (.call :: modes) := by
  intro o read s h name s' hrun
  unfold optionalVariable at hrun
  split at hrun
  · next name hname =>
    cases hrun
    exact (h.advance (.identifier hmodes hname)).mono (by simp)
  · cases hrun
    exact (h.of_eq (List.append_nil read).symm).mono (List.subset_cons_self _ _)

end Single

/-! ## Rows of items -/

namespace Covers

variable {α : Type} {item : Parser α} {leaves : α → List Leaf} {brackets : List Bracket}
  {modes modes' : List Mode} {mode : Mode} {kind : Kind}

theorem mono {before behind : List Mode} (h : Covers item leaves brackets modes modes')
    (hbefore : before ⊆ modes) (hbehind : modes' ⊆ behind) :
    Covers item leaves brackets before behind :=
  fun _ _ _ hat => (h (hat.mono hbefore)).mono fun _ _ hat' => hat'.mono hbehind

theorem behind (hkind : ∀ {t : Token}, t.kind = kind → Passes t brackets modes [] brackets mode)
    (hitem : Covers item leaves brackets [mode] modes') :
    Covers (behind kind item) (·.toList.flatMap leaves) brackets modes (modes ++ modes') := by
  intro o read s h
  refine Leads.consume (fun hdue => ?_) fun _ => ?_
  · refine (hitem (h.advance_nil (hkind hdue))).bind fun a s h => Leads.pure ?_
    exact (h.of_eq (by simp)).mono (List.subset_append_right _ _)
  · exact Leads.pure ((h.of_eq (by simp)).mono (List.subset_append_left _ _))

theorem unlessDue (hitem : Covers item leaves brackets modes modes') :
    Covers (unlessDue kind item) (·.toList.flatMap leaves) brackets modes (modes ++ modes') := by
  intro o read s h
  refine Leads.current ?_
  split
  · exact Leads.pure ((h.of_eq (by simp)).mono (List.subset_append_left _ _))
  · refine (hitem h).bind fun a s h => Leads.pure ?_
    exact (h.of_eq (by simp)).mono (List.subset_append_right _ _)

/-- Items that lead from one to the next. -/
theorem many {step : Parser (Option α)}
    (hstep : Covers step (·.toList.flatMap leaves) brackets modes modes) :
    Covers (many step) (·.flatMap leaves) brackets modes modes := by
  intro o read s h
  refine Leads.many (Q := fun as => At o (read ++ as.flatMap leaves) brackets modes)
    (h.of_eq (List.append_nil read).symm) fun as s h => (hstep h).mono fun r s h => ?_
  exact h.of_eq (by simp)

theorem commaSeparated
    (hcomma : ∀ {t : Token}, t.kind = .punctuation .comma → Passes t brackets modes' [] brackets mode)
    (hitem : Covers item leaves brackets [mode] modes') :
    Covers (commaSeparated item) (·.flatMap leaves) brackets [mode] modes' := by
  intro o read s h
  have hothers := many ((behind hcomma hitem).mono (List.Subset.refl _)
    (List.append_subset.2 ⟨List.Subset.refl _, List.Subset.refl _⟩))
  refine (hitem h).bind fun first s h => ?_
  refine (hothers h).bind fun others s h => Leads.pure ?_
  exact h.of_eq (by simp)

theorem commaSeparatedUntil
    (hcomma : ∀ {t : Token}, t.kind = .punctuation .comma → Passes t brackets modes' [] brackets mode)
    (hitem : Covers item leaves brackets [mode] modes') :
    Covers (commaSeparatedUntil kind item) (·.flatMap leaves) brackets [mode] (mode :: modes') := by
  intro o read s h
  refine (unlessDue (commaSeparated hcomma hitem) h).bind fun r s h => Leads.pure ?_
  refine h.of_eq ?_
  cases r <;> simp

end Covers

/-- The further parts of a name with points in it. -/
theorem covers_dottedNames {brackets : List Bracket} {role : NameRole} :
    Covers (many (behind (.punctuation .dot) (symbolicName role))) leavesOfNames brackets
      [.call] [.call] := by
  intro o read s h
  have hpart : Covers (behind (.punctuation .dot) (symbolicName role)) _ brackets
      [.call] [.call, .call] := .behind .dot (covers_symbolicName _)
  have hparts := Covers.many (hpart.mono (List.Subset.refl _) (by simp))
  refine (hparts h).mono fun names s h => ?_
  exact h.of_eq (by simp [leavesOfNames, List.map_eq_flatMap])

theorem covers_labelList {brackets : List Bracket} :
    Covers labelList leavesOfNames brackets [.value, .call] [.value, .call] := by
  intro o read s h
  have hlabel : Covers (behind (.punctuation .colon) (symbolicName .label)) _ brackets
      [.value, .call] [.value, .call, .call] := .behind (.colon (by simp)) (covers_symbolicName _)
  have hlabels := Covers.many (hlabel.mono (List.Subset.refl _) (by simp))
  refine (hlabels h).bind fun labels s h => ?_
  split
  · exact Leads.fail
  · exact Leads.pure (h.of_eq (by simp [leavesOfNames, List.map_eq_flatMap]))

end Grammar

end Cypher
