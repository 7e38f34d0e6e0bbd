import Mathlib.Control.Monad.Basic
import TypedLambda.Proofs.Grammar.Completion
import TypedLambda.Proofs.RoundTrip

/-!
# The parts of a text are read as they are read alone

A text that is read as an expression by itself is read as the same expression inside a larger text,
whatever layout and parentheses it has. What comes behind it there is a space or a closing
parenthesis, and these end every token, so the derivation of the part still holds in front of them
(`Derives.appendable`). The larger text is then derived from the derivations of its parts, and no
parser is run.
-/

namespace TypedLambda.Derivation

variable {s t behind rest : List Char} {e : Expr}

/-! ## Phrases in front of more text -/

/-- A phrase is still one when a text that ends every token is put behind what follows it. -/
def Appendable (A : List Char → List Char → Prop) : Prop :=
  ∀ ⦃s rest t⦄, A s rest → Parted t → A (s ++ t) (rest ++ t)

/-- A class of characters that has no space and no parenthesis still stops at the longer text. -/
theorem Stops.append_parted {P : Char → Prop} (h : Stops P s) (hp : Parted t) (hspace : ¬P ' ')
    (hclosing : ¬P ')') : Stops P (s ++ t) :=
  stops_append h (hp.stops hspace hclosing)

theorem Gap.append (h : Gap s rest) (t : List Char) : Gap (s ++ t) (rest ++ t) := by
  obtain ⟨blanks, rfl, hblanks⟩ := h
  exact ⟨blanks, List.append_assoc .., hblanks⟩

/-- A token is one before a longer text if its condition on what follows allows that. -/
theorem appendable_token {chars : List Char} {MayFollow : List Char → Prop}
    (hfollow : ∀ {behind t}, MayFollow behind → Parted t → MayFollow (behind ++ t)) :
    Appendable (Token chars MayFollow) := by
  rintro s rest t ⟨behind, rfl, hf, hg⟩ hp
  exact ⟨behind ++ t, List.append_assoc .., hfollow hf hp, hg.append t⟩

theorem appendable_sign (text : String) : Appendable (Sign text) :=
  appendable_token fun _ _ => trivial

theorem appendable_word (text : String) : Appendable (Word text) :=
  appendable_token fun h hp => h.append_parted hp (by decide) (by decide)

theorem appendable_identifier (name : String) : Appendable (Identifier name) :=
  fun _ _ _ h hp => ⟨h.1, appendable_word name h.2 hp⟩

/-- A number does not run on into a text that ends every token. -/
theorem Numeral.append {digits : List Char} (h : Numeral digits behind) (hp : Parted t) :
    Numeral digits (behind ++ t) := by
  cases h with
  | zero h => exact .zero (h.append_parted hp (by decide) (by decide))
  | positive hfirst hne hothers hle h =>
    exact .positive hfirst hne hothers hle (h.append_parted hp (by decide) (by decide))

theorem appendable_number (n : Int64) : Appendable (Number n) := by
  rintro s rest t ⟨digits, hn, h⟩ hp
  exact ⟨digits, hn, appendable_token Numeral.append h hp⟩

theorem DerivesType.appendable {atomic : Bool} {type : Ty} :
    Appendable fun s rest => DerivesType atomic s type rest := by
  intro s rest t h hp
  induction h with
  | int h => exact .int (appendable_word _ h hp)
  | bool h => exact .bool (appendable_word _ h hp)
  | parens ho _ hc ih => exact .parens (appendable_sign _ ho hp) ih (appendable_sign _ hc hp)
  | atom _ ih => exact .atom ih
  | arrow _ ha _ ihs iht => exact .arrow ihs (appendable_sign _ ha hp) iht

/-- **A derivation does not depend on what is put behind the text, if it ends every token.** -/
theorem Derives.appendable {category : Category} {ending : Ending} {e : Expr} :
    Appendable fun s rest => Derives category ending s e rest := by
  intro s rest t h hp
  induction h with
  | parens ho _ hc ih => exact .parens (appendable_sign _ ho hp) ih (appendable_sign _ hc hp)
  | yes h => exact .yes (appendable_word _ h hp)
  | no h => exact .no (appendable_word _ h hp)
  | number h => exact .number (appendable_number _ h hp)
  | var h => exact .var (appendable_identifier _ h hp)
  | ite hi _ ht _ he _ ihc ihy ihn =>
    exact .ite (appendable_word _ hi hp) ihc (appendable_word _ ht hp) ihy
      (appendable_word _ he hp) ihn
  | lam hl hi hc ht hd _ ih =>
    exact .lam (appendable_sign _ hl hp) (appendable_identifier _ hi hp) (appendable_sign _ hc hp)
      (DerivesType.appendable ht hp) (appendable_sign _ hd hp) ih
  | single _ ih => exact .single ih
  | apply _ _ ihf iha => exact .apply ihf iha
  | operand _ ih => exact .operand ih
  | join hle _ ho _ ihl ihr => exact .join hle ihl (appendable_sign _ ho hp) ihr

/-! ## Whole texts inside others -/

/-- A text that is an expression by itself is one in front of more text. -/
theorem Program.before (h : Program s e) (hp : Parted t) (hg : Gap t rest) :
    ∃ start ending, Gap (s ++ t) start ∧ Derives (.operation 0) ending start e rest := by
  obtain ⟨start, ending, hgap, hd⟩ := h
  exact ⟨start ++ t, ending, hgap.append t, Derives.absorbs (Derives.appendable hd hp) hg⟩

theorem typeText_before {type : Ty} (h : ∃ start, Gap s start ∧ DerivesType false start type [])
    (hp : Parted t) (hg : Gap t rest) :
    ∃ start, Gap (s ++ t) start ∧ DerivesType false start type rest := by
  obtain ⟨start, hgap, hd⟩ := h
  exact ⟨start ++ t, hgap.append t, DerivesType.absorbs (DerivesType.appendable hd hp) hg⟩

/-- A text in parentheses is an atom. -/
theorem Program.enclosed (h : Program s e) (hg : Gap behind rest) :
    Derives .atom .closed ("(".toList ++ (s ++ (")".toList ++ behind))) e rest := by
  obtain ⟨start, ending, hgap, hd⟩ := h.before parted_closing gap_self
  exact .parens (sign_append "(" hgap) hd (sign_append ")" hg)

end TypedLambda.Derivation

namespace TypedLambda

open TypedLambda.Derivation

variable {s₁ s₂ s₃ : String} {e₁ e₂ e₃ : Expr}

theorem parse_parens (h₁ : Expr.parse s₁ = .ok e₁) : Expr.parse ("(" ++ s₁ ++ ")") = .ok e₁ := by
  rw [parse_eq_ok_iff] at h₁ ⊢
  simp only [String.toList_append, List.append_assoc]
  exact ⟨_, _, gap_self, .operand (.single (h₁.enclosed gap_self))⟩

theorem parse_prim (op : Op) (h₁ : Expr.parse s₁ = .ok e₁) (h₂ : Expr.parse s₂ = .ok e₂) :
    Expr.parse ("(" ++ s₁ ++ ") " ++ op.text ++ " (" ++ s₂ ++ ")") = .ok (.prim op e₁ e₂) := by
  rw [parse_eq_ok_iff] at h₁ h₂ ⊢
  simp only [String.toList_append, List.append_assoc]
  -- Both operands are atoms, so the rank of the operator does not matter.
  exact ⟨_, _, gap_self, .join (Nat.zero_le _) (.operand (.single (h₁.enclosed gap_space)))
    (sign_append op.text gap_space) (.operand (.single (h₂.enclosed gap_self)))⟩

theorem parse_app (h₁ : Expr.parse s₁ = .ok e₁) (h₂ : Expr.parse s₂ = .ok e₂) :
    Expr.parse ("(" ++ s₁ ++ ") (" ++ s₂ ++ ")") = .ok (.app e₁ e₂) := by
  rw [parse_eq_ok_iff] at h₁ h₂ ⊢
  simp only [String.toList_append, List.append_assoc]
  exact ⟨_, _, gap_self, .operand (.apply (.single (h₁.enclosed gap_space))
    (h₂.enclosed gap_self))⟩

/-- The parts of a conditional need no parentheses. -/
theorem parse_ite (h₁ : Expr.parse s₁ = .ok e₁) (h₂ : Expr.parse s₂ = .ok e₂)
    (h₃ : Expr.parse s₃ = .ok e₃) :
    Expr.parse ("if " ++ s₁ ++ " then " ++ s₂ ++ " else " ++ s₃) = .ok (.ite e₁ e₂ e₃) := by
  rw [parse_eq_ok_iff] at h₁ h₂ h₃ ⊢
  simp only [String.toList_append, List.append_assoc]
  obtain ⟨start₁, ending₁, hgap₁, hd₁⟩ := h₁.before parted_space gap_space
  obtain ⟨start₂, ending₂, hgap₂, hd₂⟩ := h₂.before parted_space gap_space
  obtain ⟨start₃, ending₃, hgap₃, hd₃⟩ := h₃
  exact ⟨_, _, gap_self, .operand (.single (.ite
    (word_append "if" parted_space (gap_space.trans hgap₁)) hd₁
    (word_append "then" parted_space (gap_space.trans hgap₂)) hd₂
    (word_append "else" parted_space (gap_space.trans hgap₃)) hd₃))⟩

/-- Neither the type of a parameter nor the body of a function needs parentheses. -/
theorem parse_lam {x st : String} {t : Ty} (hx : IsIdentifier x) (ht : Ty.parse st = .ok t)
    (h₁ : Expr.parse s₁ = .ok e₁) :
    Expr.parse ("\\" ++ x ++ " : " ++ st ++ " . " ++ s₁) = .ok (.lam x t e₁) := by
  rw [parse_eq_ok_iff] at h₁ ⊢
  rw [parseType_eq_ok_iff] at ht
  simp only [String.toList_append, List.append_assoc]
  obtain ⟨startType, hgapType, hdType⟩ := typeText_before ht parted_space gap_space
  obtain ⟨start, ending, hgap, hd⟩ := h₁
  exact ⟨_, _, gap_self, .operand (.single (.lam (sign_append "\\" gap_self)
    ⟨hx, word_append x parted_space gap_space⟩ (sign_append ":" (gap_space.trans hgapType)) hdType
    (sign_append "." (gap_space.trans hgap)) hd))⟩

/--
**Reading is compositional.** Texts that are read by themselves are read as the same expressions in
parentheses, as operands, as function and argument, as the parts of a conditional and as the body of
a function.
-/
theorem reading_is_compositional {x st : String} {t : Ty} (op : Op)
    (h₁ : Expr.parse s₁ = .ok e₁) (h₂ : Expr.parse s₂ = .ok e₂) (h₃ : Expr.parse s₃ = .ok e₃)
    (hx : IsIdentifier x) (ht : Ty.parse st = .ok t) :
    Expr.parse ("(" ++ s₁ ++ ")") = .ok e₁ ∧
    Expr.parse ("(" ++ s₁ ++ ") " ++ op.text ++ " (" ++ s₂ ++ ")") = .ok (.prim op e₁ e₂) ∧
    Expr.parse ("(" ++ s₁ ++ ") (" ++ s₂ ++ ")") = .ok (.app e₁ e₂) ∧
    Expr.parse ("if " ++ s₁ ++ " then " ++ s₂ ++ " else " ++ s₃) = .ok (.ite e₁ e₂ e₃) ∧
    Expr.parse ("\\" ++ x ++ " : " ++ st ++ " . " ++ s₁) = .ok (.lam x t e₁) :=
  ⟨parse_parens h₁, parse_prim op h₁ h₂, parse_app h₁ h₂, parse_ite h₁ h₂ h₃, parse_lam hx ht h₁⟩

/-- A conditional that ends in a function, which goes on as far as it can, is a part like others. -/
theorem reading_is_compositional_trailing :
    Expr.parse ("(" ++ "f x +1\n" ++ ") " ++ Op.mul.text ++ " (" ++ "if a then b else\\y:Int.y" ++
      ")") = .ok (.prim .mul (.prim .add (.app (.var "f") (.var "x")) (.lit (.int 1)))
        (.ite (.var "a") (.var "b") (.lam "y" .int (.var "y")))) ∧
    Expr.parse ("if " ++ "f x +1\n" ++ " then " ++ "if a then b else\\y:Int.y" ++ " else " ++
      " 0") = .ok (.ite (.prim .add (.app (.var "f") (.var "x")) (.lit (.int 1)))
        (.ite (.var "a") (.var "b") (.lam "y" .int (.var "y"))) (.lit (.int 0))) ∧
    Expr.parse ("\\" ++ "x\x27" ++ " : " ++ "(Int->Bool)->Int" ++ " . " ++ "f x +1\n") =
      .ok (.lam "x\x27" (.arrow (.arrow .int .bool) .int)
        (.prim .add (.app (.var "f") (.var "x")) (.lit (.int 1)))) := by
  obtain ⟨-, hprim, -, hite, hlam⟩ := reading_is_compositional .mul
    (by decide +kernel : Expr.parse "f x +1\n" =
      .ok (.prim .add (.app (.var "f") (.var "x")) (.lit (.int 1))))
    (by decide +kernel : Expr.parse "if a then b else\\y:Int.y" =
      .ok (.ite (.var "a") (.var "b") (.lam "y" .int (.var "y"))))
    (by decide +kernel : Expr.parse " 0" = .ok (.lit (.int 0)))
    (by decide : IsIdentifier "x\x27")
    (by decide +kernel : Ty.parse "(Int->Bool)->Int" = .ok (.arrow (.arrow .int .bool) .int))
  exact ⟨hprim, hite, hlam⟩

end TypedLambda
