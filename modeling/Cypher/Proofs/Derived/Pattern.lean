import Mathlib.Data.Nat.Digits.Defs
import Cypher.Grammar.Pattern
import Cypher.Proofs.Tree.Erase

/-!
# The grammar of paths

    pattern      := [name '='] node (relationship node)*
    node         := '(' [name] (':' label)* [parameter] ')'
    relationship := ['<'] '-' ['[' detail ']'] ('-' | '->'), not with both heads
    detail       := [name] [':' type ('|' [':'] type)*] ['*' [min] ['..' [max]]] [parameter]

Each line is a relation between the tokens of a text and the tree they are
written for, with its spans erased. Nothing is read here: the relations say which
texts belong to the grammar, and for what, and are told by how a text is put
together. Maps are left out, and with them the expressions in a path.

Which numbers may bound the hops is a parameter of the relations. So a text can
be told to fit the grammar but for the size of its numbers.
-/

namespace Cypher.Derived

open Token (Kind)

variable {α : Type}

/-! ## What grammars are made of -/

/-- A part that may be missing. -/
inductive Optional (D : List Token → α → Prop) : List Token → Option α → Prop
  | absent : Optional D [] none
  | present {ts : List Token} {a : α} (part : D ts a) : Optional D ts (some a)

/-- A part any number of times. -/
inductive Repeated (D : List Token → α → Prop) : List Token → List α → Prop
  | nil : Repeated D [] []
  | cons {ts us : List Token} {a : α} {as : List α} (first : D ts a)
    (others : Repeated D us as) : Repeated D (ts ++ us) (a :: as)

/-- One more of the part at the end. -/
theorem Repeated.snoc {D : List Token → α → Prop} {ts us : List Token} {as : List α} {a : α}
    (h : Repeated D ts as) (ha : D us a) : Repeated D (ts ++ us) (as ++ [a]) := by
  induction h with
  | nil => simpa using Repeated.cons ha .nil
  | cons first others ih =>
    rw [List.append_assoc]
    exact .cons first ih

/-- A part with a token of the kind in front of it. -/
inductive Behind (kind : Kind) (D : List Token → α → Prop) : List Token → α → Prop
  | mk {t : Token} {ts : List Token} {a : α} (due : t.kind = kind) (part : D ts a) :
    Behind kind D (t :: ts) a

/-- A variable, which is no reserved word. -/
inductive Variable : List Token → String → Prop
  | mk {t : Token} {name : String} (due : t.kind = .identifier name) : Variable [t] name

/-- A name where reserved words are names too. -/
inductive Name : List Token → String → Prop
  | mk {t : Token} {name : String} (due : t.symbolicName? = some name) : Name [t] name

/-! ## Nodes -/

inductive Parameter : List Token → Properties → Prop
  | mk {t : Token} {name : String} (due : t.kind = .parameter name) :
    Parameter [t] (.parameter name .nowhere)

inductive Node : List Token → NodePattern → Prop
  | mk {lparen rparen : Token} {names labels parameters : List Token} {name : Option String}
    {labelNames : List String} {properties : Option Properties}
    (opened : lparen.kind = .punctuation .lparen) (named : Optional Variable names name)
    (labelled : Repeated (Behind (.punctuation .colon) Name) labels labelNames)
    (constrained : Optional Parameter parameters properties)
    (closed : rparen.kind = .punctuation .rparen) :
    Node (lparen :: (names ++ (labels ++ (parameters ++ [rparen]))))
      ⟨name, labelNames, properties, .nowhere⟩

/-! ## Relationships -/

/-- The number that digits write, by the places they stand in. -/
def placeValue (digits : String) : Nat :=
  Nat.ofDigits 10 (digits.toList.reverse.map fun c => c.toNat - '0'.toNat)

inductive Bound (fits : Nat → Prop) : List Token → Nat → Prop
  | mk {t : Token} {digits : String} (due : t.kind = .integer digits)
    (fit : fits (placeValue digits)) : Bound fits [t] (placeValue digits)

/-- What stands behind the star. One number alone is both bounds. -/
inductive Range (fits : Nat → Prop) : List Token → HopRange → Prop
  | single {ts : List Token} {n : Option Nat} (bound : Optional (Bound fits) ts n) :
    Range fits ts ⟨n, n⟩
  | range {dots : Token} {ts us : List Token} {min max : Option Nat}
    (lower : Optional (Bound fits) ts min) (due : dots.kind = .operator .dotDot)
    (upper : Optional (Bound fits) us max) : Range fits (ts ++ dots :: us) ⟨min, max⟩

/-- A further type, with a colon of its own or without. -/
inductive OtherType : List Token → String → Prop
  | plain {ts : List Token} {name : String} (part : Behind (.operator .pipe) Name ts name) :
    OtherType ts name
  | colon {ts : List Token} {name : String}
    (part : Behind (.operator .pipe) (Behind (.punctuation .colon) Name) ts name) :
    OtherType ts name

inductive Types : List Token → List String → Prop
  | none : Types [] []
  | some {ts us : List Token} {name : String} {names : List String}
    (first : Behind (.punctuation .colon) Name ts name) (others : Repeated OtherType us names) :
    Types (ts ++ us) (name :: names)

inductive Detail (fits : Nat → Prop) : List Token → Grammar.Detail → Prop
  | mk {names types hops parameters : List Token} {name : Option String}
    {typeNames : List String} {range : Option HopRange} {properties : Option Properties}
    (named : Optional Variable names name) (typed : Types types typeNames)
    (bounded : Optional (Behind (.operator .star) (Range fits)) hops range)
    (constrained : Optional Parameter parameters properties) :
    Detail fits (names ++ (types ++ (hops ++ parameters))) ⟨name, typeNames, range, properties⟩

/-- The detail in its brackets, or neither. -/
inductive Bracketed (fits : Nat → Prop) : List Token → Grammar.Detail → Prop
  | absent : Bracketed fits [] {}
  | present {lbracket rbracket : Token} {ts : List Token} {d : Grammar.Detail}
    (opened : lbracket.kind = .punctuation .lbracket) (inner : Detail fits ts d)
    (closed : rbracket.kind = .punctuation .rbracket) :
    Bracketed fits (lbracket :: (ts ++ [rbracket])) d

/-- A relationship of a direction, with what its brackets say. -/
def relationship (direction : Direction) (d : Grammar.Detail) : RelationshipPattern :=
  ⟨direction, d.name, d.types, d.hops, d.properties, .nowhere⟩

inductive Relationship (fits : Nat → Prop) : List Token → RelationshipPattern → Prop
  | undirected {near far : Token} {ts : List Token} {d : Grammar.Detail}
    (opened : near.kind = .operator .minus) (inner : Bracketed fits ts d)
    (closed : far.kind = .operator .minus) :
    Relationship fits (near :: (ts ++ [far])) (relationship .undirected d)
  | outgoing {near far : Token} {ts : List Token} {d : Grammar.Detail}
    (opened : near.kind = .operator .minus) (inner : Bracketed fits ts d)
    (closed : far.kind = .operator .arrow) :
    Relationship fits (near :: (ts ++ [far])) (relationship .outgoing d)
  | incoming {head near far : Token} {ts : List Token} {d : Grammar.Detail}
    (headed : head.kind = .operator .lt) (opened : near.kind = .operator .minus)
    (inner : Bracketed fits ts d) (closed : far.kind = .operator .minus) :
    Relationship fits (head :: near :: (ts ++ [far])) (relationship .incoming d)

/-! ## Paths -/

inductive Step (fits : Nat → Prop) : List Token → Link → Prop
  | mk {ts us : List Token} {r : RelationshipPattern} {n : NodePattern}
    (crossed : Relationship fits ts r) (reached : Node us n) : Step fits (ts ++ us) ⟨r, n⟩

inductive Path (fits : Nat → Prop) : List Token → Pattern → Prop
  | plain {ts us : List Token} {first : NodePattern} {chain : List Link}
    (start : Node ts first) (steps : Repeated (Step fits) us chain) :
    Path fits (ts ++ us) ⟨none, first, chain, .nowhere⟩
  | named {t equals : Token} {ts us : List Token} {name : String} {first : NodePattern}
    {chain : List Link} (due : t.kind = .identifier name) (bound : equals.kind = .operator .eq)
    (start : Node ts first) (steps : Repeated (Step fits) us chain) :
    Path fits (t :: equals :: (ts ++ us)) ⟨some name, first, chain, .nowhere⟩

/-! ## Numbers -/

/-- Leading zeros are left out of account, and so is everything but the digits' places. -/
theorem decimalValue_eq (digits : String) : Grammar.decimalValue digits = placeValue digits := by
  unfold Grammar.decimalValue placeValue
  generalize digits.toList = cs
  have hvalue (n : Nat) : cs.foldl (fun n c => n * 10 + (c.toNat - '0'.toNat)) n
      = Nat.ofDigits 10 (cs.reverse.map fun c => c.toNat - '0'.toNat) + 10 ^ cs.length * n := by
    induction cs generalizing n with
    | nil => simp
    | cons c cs ih =>
      rw [List.foldl_cons, ih, List.reverse_cons, List.map_append, Nat.ofDigits_append,
        List.length_map, List.length_reverse, List.length_cons, List.map_cons, List.map_nil,
        Nat.ofDigits_singleton]
      ring
  rw [hvalue, Nat.mul_zero, Nat.add_zero]

/-- The bounds on the hops of a path, in order. -/
def bounds (p : Pattern) : List Nat :=
  p.chain.flatMap fun l => l.relationship.hops.toList.flatMap fun h => h.min.toList ++ h.max.toList

end Cypher.Derived
