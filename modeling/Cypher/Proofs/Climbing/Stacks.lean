import Cypher.Proofs.Climbing.Basic
import Cypher.Proofs.Compared.Operators

/-!
# The stacks climb

The two stacks hold what climbs would hold that have not come to their end:
each waiting operator is a climb that waits for its right side, and the
operand beside it is what that climb has read on the left. Reducing an operator
ends the climb on its right side. An incoming operator reduces those that no
climb would pass it on to, and finds on top the one that passes it on to
itself.

That a loose operator may wait on top of a tighter one does no harm. The climb
that it has started takes every operator between two operands or behind one,
so none of them ever reduces it.
-/

namespace Cypher

/-! ## Rows -/

namespace Level

theorem mem_table_of_lookup {kind : Token.Kind} {fixity : Fixity} {level : Level}
    (h : lookup kind fixity = some level) : level ∈ table ∧ level.fixity = fixity := by
  have hrow := List.find?_some h
  rw [decide_eq_true_iff] at hrow
  exact ⟨List.mem_of_find?_eq_some h, hrow.1⟩

/-- Rows of one binding group alike, and stand alike to the operand on their
left. -/
theorem alike_of_binding_eq {l l' : Level} (h : l ∈ table) (h' : l' ∈ table)
    (hbinding : l.binding = l'.binding) :
    l.assoc = l'.assoc ∧ (l.fixity = .before ↔ l'.fixity = .before) := by
  have hall : ∀ l ∈ table, ∀ l' ∈ table, l.binding = l'.binding →
      l.assoc = l'.assoc ∧ (l.fixity = .before ↔ l'.fixity = .before) := by decide
  exact hall l h l' h' hbinding

theorem one_le_binding {l : Level} (h : l ∈ table) : 1 ≤ l.binding := by
  have hall : ∀ l ∈ table, 1 ≤ l.binding := by decide
  exact hall l h

theorem assoc_after {kind : Token.Kind} {level : Level} (h : lookup kind .after = some level) :
    level.assoc = .left := by
  obtain ⟨hmem, hfixity⟩ := mem_table_of_lookup h
  have hall : ∀ l ∈ table, l.fixity = .after → l.assoc = .left := by decide
  exact hall level hmem hfixity

/-- Whether an incoming operator of this row reduces a waiting one. -/
def reduces (level : Level) (top : Pending) : Bool :=
  level.binding < top.binding || (top.binding = level.binding && level.assoc = .left)

theorem reduces_iff {level : Level} {top : Pending} :
    level.reduces top = true
      ↔ level.binding < top.binding ∨ top.binding = level.binding ∧ level.assoc = .left := by
  unfold reduces
  rw [Bool.or_eq_true, Bool.and_eq_true, decide_eq_true_iff, decide_eq_true_iff,
    decide_eq_true_iff]

end Level

namespace Grammar

/-! ## Climbs that wait -/

/-- A climb that waits for the right side of an operator. -/
inductive Frame
  | prefixed (op : PrefixOperator) (level : Level) (t : Token)
  | infixed (left : Operand) (op : InfixOperator) (level : Level) (t : Token)

namespace Frame

/-- The operator, as it waits on the stack. -/
def pending : Frame → Pending
  | prefixed op level t => ⟨.prefixed op, level.binding, t.text, t.span⟩
  | infixed _ op level t => ⟨.infixed op, level.binding, t.text, t.span⟩

/-- What has been read on the left. -/
def left? : Frame → Option Operand
  | prefixed _ _ _ => none
  | infixed left _ _ _ => some left

/-- How tightly the operators on the right side have to bind. -/
def demand : Frame → Nat
  | prefixed _ level _ => level.binding
  | infixed _ _ level _ => level.right

/-- What has been read once the right side has. -/
def close : Frame → Expression → Climb
  | prefixed op _ t, right => ⟨.prefixed op right ⟨t.span.start, right.span.stop⟩, none⟩
  | infixed left op level t, right =>
    ⟨.infixed op left.tree right (left.tree.span.join right.span),
      some ⟨.infixed op, level.binding, t.text, t.span⟩⟩

/-- The operator has its row, and a climb that asks for this binding takes it. -/
def Fits (least : Nat) : Frame → Prop
  | prefixed op level _ => Level.lookup op.kind .before = some level
  | infixed _ op level _ => Level.lookup op.kind .between = some level ∧ least ≤ level.binding

/-- The operator reduces to what the climb has read then. -/
theorem apply_pending (f : Frame) (o : Operand) (rest : List Operand) :
    ∃ height, f.pending.apply (o :: (f.left?.toList ++ rest))
      = some (⟨(f.close o.tree).tree, height⟩, rest) := by
  cases f <;> exact ⟨_, rfl⟩

/-- What the climb ends with is made by its own operator. -/
theorem last_close {f : Frame} {e : Expression} {p : Pending} (h : p ∈ (f.close e).last) :
    p = f.pending := by
  cases f with
  | prefixed op level t => cases h
  | infixed left op level t =>
    cases h
    rfl

variable {f : Frame} {least : Nat} {level : Level} (hfits : f.Fits least)
  (hlevel : level ∈ Level.table)

include hfits hlevel

/-- An operator that is reduced by another leaves it to the climb around. -/
theorem lt_demand_of_reduces (hbefore : level.fixity ≠ .before)
    (h : level.reduces f.pending = true) : level.binding < f.demand := by
  rw [Level.reduces_iff] at h
  cases f with
  | prefixed op row t =>
    obtain ⟨hrow, hfixity⟩ := Level.mem_table_of_lookup hfits
    rcases h with hlt | ⟨heq, -⟩
    · exact hlt
    · exact absurd ((Level.alike_of_binding_eq hrow hlevel heq).2.1 hfixity) hbefore
  | infixed left op row t =>
    obtain ⟨hrow, -⟩ := Level.mem_table_of_lookup hfits.1
    show level.binding < row.right
    unfold Level.right
    rcases h with hlt | ⟨heq, hleft⟩
    · have hlt : level.binding < row.binding := hlt
      split <;> omega
    · have heq : row.binding = level.binding := heq
      have hassoc := (Level.alike_of_binding_eq hrow hlevel heq).1
      rw [hassoc, hleft, if_neg (by decide)]
      omega

/-- An operator that is not reduced by another takes it to its right side,
unless the two do not group. -/
theorem demand_le_of_not_reduces (h : level.reduces f.pending = false)
    (hchain : ¬ (level.assoc = .nonAssoc ∧ f.pending.binding = level.binding)) :
    f.demand ≤ level.binding := by
  rw [Bool.eq_false_iff, ne_eq, Level.reduces_iff, not_or, not_lt] at h
  obtain ⟨hle, hleft⟩ := h
  cases f with
  | prefixed op row t => exact hle
  | infixed left op row t =>
    obtain ⟨hrow, -⟩ := Level.mem_table_of_lookup hfits.1
    have hle : row.binding ≤ level.binding := hle
    have hleft : ¬ (row.binding = level.binding ∧ level.assoc = .left) := hleft
    have hchain : ¬ (level.assoc = .nonAssoc ∧ row.binding = level.binding) := hchain
    show row.right ≤ level.binding
    unfold Level.right
    by_cases heq : row.binding = level.binding
    · have hassoc := (Level.alike_of_binding_eq hrow hlevel heq).1
      have hright : row.assoc = .right := by
        rw [hassoc]
        cases hlevelAssoc : level.assoc with
        | left => exact absurd ⟨heq, hlevelAssoc⟩ hleft
        | right => rfl
        | nonAssoc => exact absurd ⟨hlevelAssoc, heq⟩ hchain
      rw [if_pos hright, heq]
    · split <;> omega

/-- Where two operators do not group, the second is left to the climb around,
which would take it. -/
theorem of_chained (hbefore : level.fixity ≠ .before) (hassoc : level.assoc = .nonAssoc)
    (hbinding : f.pending.binding = level.binding) :
    level.binding < f.demand ∧ least ≤ level.binding
      ∧ ∀ e, (f.close e).last = some f.pending := by
  cases f with
  | prefixed op row t =>
    obtain ⟨hrow, hfixity⟩ := Level.mem_table_of_lookup hfits
    exact absurd ((Level.alike_of_binding_eq hrow hlevel hbinding).2.1 hfixity) hbefore
  | infixed left op row t =>
    obtain ⟨hrow, -⟩ := Level.mem_table_of_lookup hfits.1
    have hbinding : row.binding = level.binding := hbinding
    have hsame := (Level.alike_of_binding_eq hrow hlevel hbinding).1
    refine ⟨?_, hbinding ▸ hfits.2, fun _ => rfl⟩
    show level.binding < row.right
    unfold Level.right
    rw [hsame, hassoc, if_neg (by decide)]
    omega

end Frame

/-- How tightly an operator has to bind to belong to the climb on top. -/
def demand : List Frame → Nat
  | [] => 1
  | f :: _ => f.demand

/-- Each operator belongs to the climb around it. -/
def Fit : List Frame → Prop
  | [] => True
  | f :: fs => f.Fits (demand fs) ∧ Fit fs

/-- The operands on the stack below the topmost one. -/
def lefts (fs : List Frame) : List Operand := fs.flatMap fun f => f.left?.toList

/-- The operators on the stack. -/
def waiting (fs : List Frame) : List Pending := fs.map Frame.pending

/-- What the climbs do once the one on top has come to its end. -/
def unwind (operand : Parser Operand) : List Frame → Expression → Parser Expression
  | [], e => pure e
  | f :: fs, e => climbsOn operand (demand fs) (f.close e) >>= unwind operand fs

/-- What the climbs do behind what the one on top has read. -/
def resume (operand : Parser Operand) (fs : List Frame) (c : Climb) : Parser Expression :=
  climbsOn operand (demand fs) c >>= unwind operand fs

section Reducing

variable {operand : Parser Operand} (hoperand : Proceeds operand) {s : State} (hs : s.Ended)

include hoperand hs

/-- A climb that stops here hands over to the one around it. -/
theorem resume_done {f : Frame} {fs : List Frame} {c : Climb}
    (h : climbNext (climbs operand) f.demand c s = .ok (.done c) s) :
    resume operand (f :: fs) c s = resume operand fs (f.close c.tree) s := by
  have hstop : climbsOn operand f.demand c s = .ok c.tree s := by
    rw [climbsOn_eq hoperand hs, bind_ok h]
    rfl
  unfold resume demand
  rw [bind_ok hstop]
  rfl

/-- Reducing operators ends the climbs on their right sides, if those would all
stop here. -/
theorem settle_frames (limit : Nat) (due : Pending → Bool)
    (hstop : ∀ (f : Frame) least c, f.Fits least → due f.pending = true →
      climbNext (climbs operand) f.demand c s = .ok (.done c) s)
    {fs : List Frame} (hfs : Fit fs) {o : Operand} {c : Climb} (hc : c.tree = o.tree) :
    (Stacks.settle limit due (o :: lefts fs) (waiting fs)).tooDeep = true
      ∨ ∃ o' c' fs', Stacks.settle limit due (o :: lefts fs) (waiting fs)
          = ⟨o' :: lefts fs', waiting fs', false⟩
        ∧ Fit fs' ∧ (∀ f ∈ fs'.head?, due f.pending = false) ∧ c'.tree = o'.tree
        ∧ (∀ p ∈ c'.last, p ∈ c.last ∨ due p = true)
        ∧ resume operand fs c s = resume operand fs' c' s := by
  induction fs generalizing o c with
  | nil =>
    have hnone : ∀ f ∈ ([] : List Frame).head?, due f.pending = false := by
      intro f hf
      cases hf
    exact .inr ⟨o, c, [], rfl, trivial, hnone, hc, fun _ hp => .inl hp, rfl⟩
  | cons f fs ih =>
    obtain ⟨hfits, hfs⟩ := hfs
    obtain ⟨height, happly⟩ := f.apply_pending o (lefts fs)
    have hsettle : Stacks.settle limit due (o :: lefts (f :: fs)) (waiting (f :: fs))
        = if due f.pending = true then
            if height ≤ limit then
              Stacks.settle limit due (⟨(f.close o.tree).tree, height⟩ :: lefts fs) (waiting fs)
            else { operands := lefts fs, pending := waiting fs, tooDeep := true }
          else { operands := o :: lefts (f :: fs), pending := waiting (f :: fs) } := by
      show Stacks.settle limit due (o :: (f.left?.toList ++ lefts fs))
        (f.pending :: waiting fs) = _
      rw [Stacks.settle, happly]
      rfl
    rw [hsettle]
    by_cases hdue : due f.pending = true
    · rw [if_pos hdue]
      by_cases hheight : height ≤ limit
      · rw [if_pos hheight, resume_done hoperand hs (hstop f _ c hfits hdue), hc]
        rcases ih hfs (o := ⟨(f.close o.tree).tree, height⟩) (c := f.close o.tree) rfl with
          hdeep | ⟨o', c', fs', hsame, hfs', hhead, htree, hlast, hresume⟩
        · exact .inl hdeep
        · refine .inr ⟨o', c', fs', hsame, hfs', hhead, htree, fun p hp => ?_, hresume⟩
          rcases hlast p hp with hclosed | hp
          · exact .inr (Frame.last_close hclosed ▸ hdue)
          · exact .inr hp
      · rw [if_neg hheight]
        exact .inl rfl
    · rw [if_neg hdue]
      refine .inr ⟨o, c, f :: fs, rfl, ⟨hfits, hfs⟩, ?_, hc, fun _ hp => .inl hp, rfl⟩
      rintro _ ⟨⟩
      exact Bool.eq_false_iff.2 hdue

end Reducing

end Grammar

end Cypher
