import Cypher.Proofs.Leads
import Cypher.Proofs.Leaves.Scan

/-!
# Reading along with the scan

The grammar and the scan go over the same tokens. Where a parser has come to,
the leaves that it has read are the leaves that the scan has passed, and the
scan goes on with what is ahead. Both also mean the same by a parenthesis: what
follows the one that closes a group was known when the group was entered.

So each production is told by three things: the modes in which the scan may be
in front of it, the leaves of its answer, and the modes behind it.
-/

namespace Cypher

open Token (Kind)

/-- The kind of a token that is no parenthesis. -/
def Token.Kind.isOrdinary : Kind → Bool
  | .eof | .punctuation .lparen | .punctuation .rparen => false
  | _ => true

/-- The mode behind a parenthesis that closes the bracket. -/
def Bracket.behind (bracket : Bracket) (ahead : List Token) : Mode :=
  if bracket = .node ∧ Grammar.relationshipAhead ahead then .edge else .value

theorem Bracket.behind_of_ne {bracket : Bracket} (h : bracket ≠ .node) (ahead : List Token) :
    bracket.behind ahead = .value := if_neg fun hnode => h hnode.1

namespace Grammar

/-! ## Where a parser has come to -/

/-- What is to be seen from a place in a text, and stays the same until a
parenthesis is met. -/
structure Outlook where
  /-- The tokens of the whole text. -/
  tokens : List Token
  /-- The leaves of the whole text. -/
  leaves : List Leaf
  /-- What follows the parenthesis that closes the innermost open group, the one
  around it, and so on. -/
  closing : Nat → Option (List Token)
  /-- There are fewer tokens ahead than this. -/
  room : Nat

namespace Outlook

/-- The scan of the whole text comes to these tokens like this. -/
def Met (o : Outlook) (σ : Scan) (ahead : List Token) : Prop :=
  ∃ passed, o.tokens = passed ++ ahead ∧ ({} : Scan).passAll passed ahead = σ

theorem Met.pass {o : Outlook} {σ : Scan} {t : Token} {ahead : List Token}
    (h : o.Met σ (t :: ahead)) : o.Met (σ.pass t ahead).2 ahead := by
  obtain ⟨passed, htokens, rfl⟩ := h
  exact ⟨passed ++ [t], by rw [htokens, List.append_assoc]; rfl, Scan.passAll_concat _ _ _ _⟩

/-- The outlook in a group that has just been opened. -/
def inside (o : Outlook) (rest : Option (List Token)) : Outlook where
  tokens := o.tokens
  leaves := o.leaves
  closing
    | 0 => rest
    | n + 1 => o.closing n
  room := o.room

/-- The outlook behind a token. -/
def shorter (o : Outlook) : Outlook := { o with room := o.room - 1 }

end Outlook

/-- The leaves `read` are behind, and the scan is in the open `brackets` and in
one of the `modes`. -/
structure At (o : Outlook) (read : List Leaf) (brackets : List Bracket) (modes : List Mode)
    (s : State) : Prop where
  scan : ∃ m ∈ modes, o.leaves = read ++ Scan.leaves ⟨brackets, m⟩ s.ahead
    ∧ o.Met ⟨brackets, m⟩ s.ahead
  closing : ∀ n, o.closing n = afterGroup (n + 1) s.ahead
  proper : ∀ t ∈ s.ahead, t.kind ≠ .eof
  ended : s.Ended
  room : s.ahead.length < o.room

/-- The token, which is no parenthesis, is these leaves, and takes the scan from
any of the modes to the one behind it. -/
structure Passes (t : Token) (brackets : List Bracket) (modes : List Mode) (leaves : List Leaf)
    (brackets' : List Bracket) (mode : Mode) : Prop where
  ordinary : t.kind.isOrdinary
  scan : ∀ m ∈ modes, ∀ rest,
    (⟨brackets, m⟩ : Scan).pass t rest = (leaves, ⟨brackets', mode⟩)

namespace At

variable {o : Outlook} {read leaves : List Leaf} {brackets brackets' : List Bracket}
  {modes modes' : List Mode} {mode : Mode} {s : State} {rest : Option (List Token)} {bracket : Bracket}

theorem mono (h : At o read brackets modes s) (hmodes : modes ⊆ modes') :
    At o read brackets modes' s := by
  obtain ⟨m, hm, hscan⟩ := h.scan
  exact { h with scan := ⟨m, hmodes hm, hscan⟩ }

theorem of_eq (h : At o read brackets modes s) (hread : read = leaves) :
    At o leaves brackets modes s := hread ▸ h

theorem longer (h : At o.shorter read brackets modes s) : At o read brackets modes s :=
  { h with room := Nat.lt_of_lt_of_le h.room (Nat.sub_le _ _) }

/-- Past a token. -/
theorem pass (h : At o read brackets modes s)
    (hpasses : Passes s.current brackets modes leaves brackets' mode) :
    At o.shorter (read ++ leaves) brackets' [mode] s.advance := by
  have hahead : s.ahead = s.current :: s.advance.ahead := by
    apply State.ahead_eq h.ended
    intro heof
    have hordinary := hpasses.ordinary
    rw [heof] at hordinary
    cases hordinary
  obtain ⟨m, hm, hleaves, hmet⟩ := h.scan
  have hroom := h.room
  rw [hahead] at hroom
  constructor
  · have hscan := hpasses.scan m hm s.advance.ahead
    rw [hahead] at hleaves hmet
    refine ⟨mode, List.mem_singleton_self _, ?_, ?_⟩
    · show o.leaves = _
      rw [hleaves, Scan.leaves, hscan, List.append_assoc]
    · have hbehind := hmet.pass
      rwa [hscan] at hbehind
  · intro n
    have hordinary := hpasses.ordinary
    show o.closing n = _
    rw [h.closing, hahead, afterGroup]
    split
    · next hkind => rw [hkind] at hordinary; cases hordinary
    · next hkind => rw [hkind] at hordinary; cases hordinary
    · rfl
  · intro t ht
    exact h.proper t (hahead ▸ List.mem_cons_of_mem _ ht)
  · exact (State.Reaches.advance s).ended h.ended
  · exact Nat.lt_sub_of_add_lt hroom

theorem advance (h : At o read brackets modes s)
    (hpasses : Passes s.current brackets modes leaves brackets' mode) :
    At o (read ++ leaves) brackets' [mode] s.advance := (h.pass hpasses).longer

/-- Past a token that is no leaf. -/
theorem advance_nil (h : At o read brackets modes s)
    (hpasses : Passes s.current brackets modes [] brackets' mode) :
    At o read brackets' [mode] s.advance := (h.advance hpasses).of_eq (List.append_nil _)

/-- Into a group, or into the arguments of a call. -/
theorem enter (h : At o read brackets modes s) (hdue : s.current.kind = .punctuation .lparen)
    (bracket : Bracket) (hmodes : ∀ m ∈ modes,
      (if m = .call then .arguments else if nodeAhead s.ahead then .node else .group) = bracket) :
    At (o.inside (afterGroup 0 s.ahead)) read (bracket :: brackets) [.value] s.advance := by
  have hahead := State.ahead_eq h.ended (by rw [hdue]; exact nofun)
  have hafter (n : Nat) : afterGroup n s.ahead = afterGroup (n + 1) s.advance.ahead := by
    rw [hahead, afterGroup, hdue]
  obtain ⟨m, hm, hleaves, hmet⟩ := h.scan
  constructor
  · have hscan : (⟨brackets, m⟩ : Scan).pass s.current s.advance.ahead
        = ([], ⟨bracket :: brackets, .value⟩) := by
      rw [Scan.pass, hdue, ← hmodes m hm, hahead]
      simp only [Scan.passMark, Scan.enter]
      split <;> rfl
    rw [hahead] at hleaves hmet
    refine ⟨.value, List.mem_singleton_self _, ?_, ?_⟩
    · show o.leaves = _
      rw [hleaves, Scan.leaves, hscan, List.nil_append]
    · have hbehind := hmet.pass
      rwa [hscan] at hbehind
  · intro n
    cases n with
    | zero => exact hafter 0
    | succ n => rw [← hafter, ← h.closing]; rfl
  · intro t ht
    exact h.proper t (hahead ▸ List.mem_cons_of_mem _ ht)
  · exact (State.Reaches.advance s).ended h.ended
  · exact Nat.lt_of_le_of_lt (State.Reaches.advance s).length h.room

/-- Out of a group, in front of what was known to follow it. -/
theorem leave (h : At (o.inside rest) read (bracket :: brackets) modes s)
    (hdue : s.current.kind = .punctuation .rparen) :
    rest = some s.advance.ahead
      ∧ At o read brackets [bracket.behind s.advance.ahead] s.advance := by
  have hahead := State.ahead_eq h.ended (by rw [hdue]; exact nofun)
  have hafter (n : Nat) : afterGroup (n + 1) s.ahead
      = if n = 0 then some s.advance.ahead else afterGroup n s.advance.ahead := by
    rw [hahead, afterGroup, hdue]
    rfl
  obtain ⟨m, hm, hleaves, hmet⟩ := h.scan
  refine ⟨(h.closing 0).trans (hafter 0), ?_⟩
  constructor
  · have hscan : (⟨bracket :: brackets, m⟩ : Scan).pass s.current s.advance.ahead
        = ([], ⟨brackets, bracket.behind s.advance.ahead⟩) := by
      rw [Scan.pass, hdue]
      simp [Scan.passMark, Scan.leave, Scan.within, Bracket.behind]
    rw [hahead] at hleaves hmet
    refine ⟨_, List.mem_singleton_self _, ?_, ?_⟩
    · show (o.inside rest).leaves = _
      rw [hleaves, Scan.leaves, hscan, List.nil_append]
    · have hbehind := hmet.pass
      rwa [hscan] at hbehind
  · intro n
    exact (h.closing (n + 1)).trans (hafter (n + 1))
  · intro t ht
    exact h.proper t (hahead ▸ List.mem_cons_of_mem _ ht)
  · exact (State.Reaches.advance s).ended h.ended
  · exact Nat.lt_of_le_of_lt (State.Reaches.advance s).length h.room

end At

end Grammar

end Cypher
