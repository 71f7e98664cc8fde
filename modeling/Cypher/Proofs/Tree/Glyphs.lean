import Cypher.Proofs.Tree.Children

/-!
# Glyphs of parts

The layout of a tree goes through lists of parts with a function of its
own for each list. Here each is said with the functions of the list
library: items are laid out one by one, branches and links follow one another with
nothing between them, and an absent part has no glyphs.
-/

namespace Cypher

@[simp] theorem glyphsList_eq (es : List Expression) :
    glyphsList es = es.map Expression.glyphs := by
  induction es with
  | nil => rfl
  | cons e es ih => rw [glyphsList, ih, List.map_cons]

@[simp] theorem glyphsEntries_eq (es : List MapEntry) :
    glyphsEntries es = es.map MapEntry.glyphs := by
  induction es with
  | nil => rfl
  | cons e es ih => rw [glyphsEntries, ih, List.map_cons]

@[simp] theorem glyphsSelectors_eq (ss : List MapSelector) :
    glyphsSelectors ss = ss.map MapSelector.glyphs := by
  induction ss with
  | nil => rfl
  | cons s ss ih => rw [glyphsSelectors, ih, List.map_cons]

@[simp] theorem glyphsBranches_eq (bs : List CaseBranch) :
    glyphsBranches bs = bs.flatMap CaseBranch.glyphs := by
  induction bs with
  | nil => rfl
  | cons b bs ih => rw [glyphsBranches, ih, List.flatMap_cons]

@[simp] theorem glyphsLinks_eq (ls : List Link) :
    glyphsLinks ls = ls.flatMap Link.glyphs := by
  induction ls with
  | nil => rfl
  | cons l ls ih => rw [glyphsLinks, ih, List.flatMap_cons]

theorem glyphsOption_eq (e : Option Expression) :
    glyphsOption e = (e.map Expression.glyphs).elim [] id := by
  cases e <;> rfl

theorem glyphsWhere_eq (e : Option Expression) :
    glyphsWhere e = (e.map Expression.glyphs).elim [] (Glyph.after .WHERE) := by
  cases e <;> rfl

theorem glyphsBar_eq (e : Option Expression) :
    glyphsBar e
      = (e.map Expression.glyphs).elim [] (.space :: .operator .pipe :: .space :: ·) := by
  cases e <;> rfl

theorem glyphsSpaced_eq (e : Option Expression) :
    glyphsSpaced e = (e.map Expression.glyphs).elim [] (.space :: ·) := by
  cases e <;> rfl

theorem glyphsElse_eq (e : Option Expression) :
    glyphsElse e = (e.map Expression.glyphs).elim [] (Glyph.after .ELSE) := by
  cases e <;> rfl

end Cypher
