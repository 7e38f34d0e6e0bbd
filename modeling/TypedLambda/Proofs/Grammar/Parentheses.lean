import Mathlib.Control.Monad.Basic
import TypedLambda.Proofs.Grammar.Types
import TypedLambda.Proofs.RoundTrip

/-!
# The fewest parentheses

The text of a type has parentheses round an arrow that is the source of another one, and nowhere
else. No text of the type does with less: as the arrow groups to the right, every source is atomic
in the grammar, and an arrow becomes atomic only in parentheses. So the parentheses of any text are
counted along its tokens, and those of an atomic phrase for an arrow include a pair of its own.
-/

namespace TypedLambda

/-- How many arrows are the source of another arrow. -/
def Ty.arrowSources : Ty → Nat
  | int | bool => 0
  | arrow source target =>
    source.arrowSources + (if source.isArrow then 1 else 0) + target.arrowSources

/-- The text of a type encloses the arrows that are sources. -/
theorem Ty.count_text (type : Ty) : type.text.toList.count '(' = type.arrowSources := by
  induction type with
  | int => decide
  | bool => decide
  | arrow source target ihs iht =>
    have harrow : (" -> ".toList).count '(' = 0 := by decide
    rw [text, arrowSources, String.toList_append, String.toList_append, List.count_append,
      List.count_append, harrow, iht]
    by_cases hsource : source.isArrow = true
    · have hparens : ("(".toList).count '(' = 1 ∧ (")".toList).count '(' = 0 := by decide
      rw [if_pos hsource, if_pos hsource, String.toList_append, String.toList_append,
        List.count_append, List.count_append, hparens.1, hparens.2, ihs]
      omega
    · rw [if_neg hsource, if_neg hsource, ihs]

namespace Derivation

variable {s rest : List Char} {tokens : List TypeToken} {type : Ty} {atomic : Bool}

/-- Layout has no parentheses. -/
theorem Gap.count_eq (h : Gap s rest) : s.count '(' = rest.count '(' := by
  obtain ⟨blanks, rfl, hblanks⟩ := h
  have hnone : '(' ∉ blanks := fun hmem => absurd (hblanks _ hmem) (by decide)
  rw [List.count_append, List.count_eq_zero_of_not_mem hnone, Nat.zero_add]

/-- A text has as many opening parentheses as its tokens. -/
theorem Spelled.count_eq (h : Spelled tokens s rest) :
    s.count '(' = tokens.count .opening + rest.count '(' := by
  induction h with
  | nil => simp
  | @cons token tokens s s₁ rest htoken _ ih =>
    obtain ⟨behind, rfl, -, hg⟩ := htoken
    have htext : token.text.toList.count '(' = if token = .opening then 1 else 0 := by
      cases token <;> decide
    rw [List.count_append, htext, hg.count_eq, ih, List.count_cons]
    simp only [beq_iff_eq]
    omega

/--
**A phrase for a type opens a parenthesis for every arrow that is a source**, and another one if it
is atomic and the type is an arrow.
-/
theorem TypePhrase.arrowSources_le (h : TypePhrase atomic tokens type) :
    type.arrowSources + (if atomic && type.isArrow then 1 else 0) ≤ tokens.count .opening := by
  induction h with
  | int => decide
  | bool => decide
  | parens _ ih =>
    have hends : [TypeToken.opening].count .opening = 1 ∧ [TypeToken.closing].count .opening = 0 :=
      by decide
    rw [Bool.false_and, if_neg (by decide)] at ih
    rw [List.count_append, List.count_append, hends.1, hends.2, Bool.true_and]
    split <;> omega
  | atom _ ih =>
    rw [Bool.false_and, if_neg (by decide)]
    omega
  | arrow _ _ ihs iht =>
    have harrow : [TypeToken.arrow].count .opening = 0 := by decide
    rw [Bool.true_and] at ihs
    rw [Bool.false_and, if_neg (by decide)] at iht ⊢
    rw [List.count_append, List.count_append, harrow, Ty.arrowSources]
    omega

end Derivation

/--
**Types are printed so that they read back, with the fewest parentheses.** The text of a type is
read as the type, and every text that is read as the type has at least as many opening parentheses.
-/
theorem Ty.text_has_fewest_parentheses (type : Ty) :
    Ty.parse type.text = .ok type ∧
      ∀ source : String, Ty.parse source = .ok type →
        type.text.toList.count '(' ≤ source.toList.count '(' := by
  refine ⟨type.parse_eq_ok_of_text, fun source hparse => ?_⟩
  obtain ⟨start, tokens, hgap, hspelled, hphrase⟩ :=
    Derivation.parseType_eq_ok_iff_typeText.mp hparse
  calc type.text.toList.count '('
      = type.arrowSources := type.count_text
    _ ≤ tokens.count .opening := Nat.le_trans (Nat.le_add_right _ _) hphrase.arrowSources_le
    _ = start.count '(' := hspelled.count_eq.symm
    _ = source.toList.count '(' := hgap.count_eq.symm

/-- A type with an arrow for a source inside another one. -/
def nestedSources : Ty := .arrow (.arrow (.arrow .int .bool) .int) (.arrow .bool .int)

/-- A text of the type with parentheses that are not needed. -/
def redundantText : String := " ((Int->\n(Bool)) -> (Int)) -> (Bool -> Int)"

/-- A type with nested sources, against a text with a pair too many. -/
theorem Ty.text_has_fewest_parentheses_nested :
    Ty.parse redundantText = .ok nestedSources ∧
      nestedSources.text.toList.count '(' ≤ redundantText.toList.count '(' := by
  have hparse : Ty.parse redundantText = .ok nestedSources := by decide +kernel
  exact ⟨hparse, (Ty.text_has_fewest_parentheses nestedSources).2 redundantText hparse⟩

end TypedLambda
