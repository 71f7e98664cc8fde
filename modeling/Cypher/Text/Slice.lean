import Cypher.Span

/-!
# Byte geometry of a text

A query text is read as its characters, but every position the library
answers is a byte offset. This module holds the passage between the two:
the byte length of a run of characters, the part of a text under a span,
and the count of newlines that turns an offset into a line.
-/

namespace Cypher.Text

/-- The number of bytes a run of characters takes in UTF-8. -/
def byteLength : List Char → Nat
  | [] => 0
  | c :: cs => c.utf8Size + byteLength cs

/-- The number of line ends in a run of characters. -/
def newlines (cs : List Char) : Nat := cs.count '\n'

/-- What is left after the first `n` bytes. A character that the cut
would split goes with the part that is dropped. -/
def dropBytes : Nat → List Char → List Char
  | 0, cs => cs
  | _ + 1, [] => []
  | n + 1, c :: cs => dropBytes (n + 1 - c.utf8Size) cs

/-- As many whole characters as fit into the first `n` bytes. -/
def takeBytes : Nat → List Char → List Char
  | _, [] => []
  | n, c :: cs =>
    if c.utf8Size ≤ n then c :: takeBytes (n - c.utf8Size) cs else []

/-- The characters under a span. -/
def slice (cs : List Char) (s : Span) : List Char :=
  takeBytes s.length (dropBytes s.start cs)

/-- Byte lengths add up. -/
@[simp] theorem byteLength_append (xs ys : List Char) :
    byteLength (xs ++ ys) = byteLength xs + byteLength ys := by
  induction xs with
  | nil => simp [byteLength]
  | cons c cs ih => simp [byteLength, ih, Nat.add_assoc]

/-- Line ends add up. -/
@[simp] theorem newlines_append (xs ys : List Char) :
    newlines (xs ++ ys) = newlines xs + newlines ys :=
  List.count_append

/-- Dropping exactly the bytes of a leading run drops that run. -/
theorem dropBytes_append (xs ys : List Char) :
    dropBytes (byteLength xs) (xs ++ ys) = ys := by
  induction xs with
  | nil => simp [byteLength, dropBytes]
  | cons c cs ih =>
    have hpos := Char.utf8Size_pos c
    obtain ⟨k, hk⟩ : ∃ k, byteLength (c :: cs) = k + 1 :=
      ⟨byteLength (c :: cs) - 1, by simp [byteLength]; omega⟩
    have hrest : k + 1 - c.utf8Size = byteLength cs := by
      rw [← hk]; simp [byteLength]
    rw [hk, List.cons_append, dropBytes, hrest, ih]

/-- Taking exactly the bytes of a leading run takes that run. -/
theorem takeBytes_append (xs ys : List Char) :
    takeBytes (byteLength xs) (xs ++ ys) = xs := by
  induction xs with
  | nil =>
    cases ys with
    | nil => rfl
    | cons c cs =>
      have hpos := Char.utf8Size_pos c
      simp [byteLength, takeBytes]; omega
  | cons c cs ih => simp [byteLength, takeBytes, ih]

/-- A text's middle part is what its own span cuts out. -/
theorem slice_middle (before middle after : List Char) :
    slice (before ++ (middle ++ after))
        ⟨byteLength before, byteLength before + byteLength middle⟩
      = middle := by
  simp [slice, Span.length, dropBytes_append, takeBytes_append]

end Cypher.Text
