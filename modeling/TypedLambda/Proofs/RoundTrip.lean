import TypedLambda.Expr.Printer
import TypedLambda.Proofs.Grammar.Completeness
import TypedLambda.Proofs.Grammar.Decimal

/-!
# The text of an expression is read back

The text of an expression is derived by the grammar, so reading gives the expression again. The
grammar does the work: a text is shown to be a phrase in front of anything that starts with a space
or a closing parenthesis, which is all that the printer ever puts behind one, and no parser is run.

The printer encloses every operand that is no variable or literal, so the derivation never depends
on the ranks of two operators.

Conversely, every name and every number in a derivation is a token of the grammar, so what is read
is legal. The expressions that can be read are therefore the legal ones (`image_of_reading`), and
the text of an expression that has been read is a normal form of the text that it was read from.
-/

namespace TypedLambda

/-- Every name is an identifier and no integer is negative. -/
def Expr.Legal : Expr → Prop
  | var name => Derivation.IsIdentifier name
  | lit (.int n) => 0 ≤ n
  | lit (.bool _) => True
  | prim _ lhs rhs => lhs.Legal ∧ rhs.Legal
  | ite condition consequent alternative =>
    condition.Legal ∧ consequent.Legal ∧ alternative.Legal
  | app function argument => function.Legal ∧ argument.Legal
  | lam param _ body => Derivation.IsIdentifier param ∧ body.Legal

instance Derivation.decidableIsIdentifier : DecidablePred Derivation.IsIdentifier := fun name =>
  decidable_of_iff (name.toList.head?.any Char.isLower = true ∧
    name.toList.tail.all Phrase.identifierRules.inner = true ∧
      name ∉ ["True", "False", "if", "then", "else", "fi"]) <| by
    unfold Derivation.IsIdentifier
    cases name.toList <;> simp [and_assoc, Derivation.inner_iff]

instance Expr.decidableLegal : (e : Expr) → Decidable e.Legal
  | var name => inferInstanceAs (Decidable (Derivation.IsIdentifier name))
  | lit (.int n) => inferInstanceAs (Decidable (0 ≤ n))
  | lit (.bool _) => isTrue trivial
  | prim _ lhs rhs =>
    have := decidableLegal lhs
    have := decidableLegal rhs
    inferInstanceAs (Decidable (_ ∧ _))
  | ite condition consequent alternative =>
    have := decidableLegal condition
    have := decidableLegal consequent
    have := decidableLegal alternative
    inferInstanceAs (Decidable (_ ∧ _ ∧ _))
  | app function argument =>
    have := decidableLegal function
    have := decidableLegal argument
    inferInstanceAs (Decidable (_ ∧ _))
  | lam _ _ body =>
    have := decidableLegal body
    inferInstanceAs (Decidable (_ ∧ _))

namespace Expr

/-- The names in an expression: those of its variables and of the parameters of its functions. -/
def names : Expr → List String
  | var name => [name]
  | lit _ => []
  | prim _ lhs rhs => lhs.names ++ rhs.names
  | ite condition consequent alternative =>
    condition.names ++ (consequent.names ++ alternative.names)
  | app function argument => function.names ++ argument.names
  | lam param _ body => param :: body.names

/-- The integers in an expression. -/
def integers : Expr → List Int64
  | var _ => []
  | lit (.int n) => [n]
  | lit (.bool _) => []
  | prim _ lhs rhs => lhs.integers ++ rhs.integers
  | ite condition consequent alternative =>
    condition.integers ++ (consequent.integers ++ alternative.integers)
  | app function argument => function.integers ++ argument.integers
  | lam _ _ body => body.integers

/-- An expression is legal if all names in it are identifiers and no integer in it is negative. -/
theorem legal_iff (e : Expr) :
    e.Legal ↔ (∀ name ∈ e.names, Derivation.IsIdentifier name) ∧ ∀ n ∈ e.integers, 0 ≤ n := by
  induction e with
  | var name => simp [Legal, names, integers]
  | lit literal => cases literal <;> simp [Legal, names, integers]
  | prim op lhs rhs ihl ihr =>
    simp only [Legal, names, integers, List.forall_mem_append, ihl, ihr]
    exact and_and_and_comm
  | ite condition consequent alternative ihc ihy ihn =>
    simp only [Legal, names, integers, List.forall_mem_append, ihc, ihy, ihn]
    constructor
    · rintro ⟨⟨hc, hc'⟩, ⟨hy, hy'⟩, hn, hn'⟩
      exact ⟨⟨hc, hy, hn⟩, hc', hy', hn'⟩
    · rintro ⟨⟨hc, hy, hn⟩, hc', hy', hn'⟩
      exact ⟨⟨hc, hc'⟩, ⟨hy, hy'⟩, hn, hn'⟩
  | app function argument ihf iha =>
    simp only [Legal, names, integers, List.forall_mem_append, ihf, iha]
    exact and_and_and_comm
  | lam param type body ih =>
    simp only [Legal, names, integers, List.forall_mem_cons, ih]
    exact and_assoc.symm

end Expr

namespace Derivation

variable {s behind rest : List Char} {e : Expr}

/-! ## What the printer puts behind a phrase -/

/-- The text is empty, or a space or a closing parenthesis is first. -/
def Parted (s : List Char) : Prop := ∀ a ∈ s.head?, a = ' ' ∨ a = ')'

theorem parted_nil : Parted [] := fun _ h => by cases h

theorem parted_space : Parted (' ' :: s) := fun _ h => Or.inl (Option.some.inj h).symm

theorem parted_closing : Parted (')' :: s) := fun _ h => Or.inr (Option.some.inj h).symm

/-- A text that ends every token starts with none of the characters that go on one. -/
theorem Parted.stops {P : Char → Prop} (h : Parted s) (hspace : ¬P ' ') (hclosing : ¬P ')') :
    Stops P s := by
  intro a ha hP
  rcases h a ha with rfl | rfl
  · exact hspace hP
  · exact hclosing hP

/-- A word is read from its own text, if the text behind ends it. -/
theorem word_append (text : String) (hp : Parted behind) (hg : Gap behind rest) :
    Word text (text.toList ++ behind) rest :=
  ⟨behind, rfl, hp.stops (by decide) (by decide), hg⟩

theorem sign_append (text : String) (hg : Gap behind rest) :
    Sign text (text.toList ++ behind) rest :=
  ⟨behind, rfl, trivial, hg⟩

/-! ## Numbers -/

/-- An integer that is not negative is read from its own text. -/
theorem number_append {n : Int64} (hn : 0 ≤ n) (hp : Parted behind) (hg : Gap behind rest) :
    Number n ((Literal.int n).text.toList ++ behind) rest := by
  have hd : Decimal n ((Literal.int n).text.toList ++ behind) behind :=
    ⟨hn, rfl, fun _ => hp.stops (by decide) (by decide), hp.stops (by decide) (by decide),
      fun _ => hp.stops (by decide) (by decide)⟩
  obtain ⟨digits, hvalue, hs, hnum⟩ := decimal_iff.mp hd
  exact ⟨digits, hvalue, behind, hs, hnum, hg⟩

/-! ## Types -/

theorem derivesType_false_of {type : Ty} (h : DerivesType (!type.isArrow) s type rest) :
    DerivesType false s type rest := by
  cases hi : type.isArrow with
  | true => rwa [hi] at h
  | false =>
    rw [hi] at h
    exact .atom h

/-- **The text of a type is derived**, and is atomic unless the type is an arrow. -/
theorem derivesType_text {type : Ty} (hp : Parted behind) (hg : Gap behind rest) :
    DerivesType (!type.isArrow) (type.text.toList ++ behind) type rest := by
  induction type generalizing behind rest with
  | int => exact .int (word_append "Int" hp hg)
  | bool => exact .bool (word_append "Bool" hp hg)
  | arrow source target ihs iht =>
    have hsource : ∀ {behind rest}, Parted behind → Gap behind rest → DerivesType true
        ((if source.isArrow then "(" ++ source.text ++ ")" else source.text).toList ++ behind)
        source rest := by
      intro behind rest hp hg
      cases hi : source.isArrow with
      | true =>
        simp only [if_true, String.toList_append, List.append_assoc]
        exact .parens (sign_append "(" gap_self)
          (derivesType_false_of (ihs parted_closing gap_self)) (sign_append ")" hg)
      | false =>
        have := ihs hp hg
        rwa [hi] at this
    rw [Ty.text, String.toList_append, String.toList_append, List.append_assoc, List.append_assoc]
    exact .arrow (hsource parted_space gap_space) (sign_append "->" gap_space)
      (derivesType_false_of (iht hp hg))

/-! ## Expressions -/

/-- How the text of an expression ends. -/
def textEnding : Expr → Ending
  | .ite _ _ _ | .lam _ _ _ => .trailing
  | _ => .closed

/-- The text of an expression is a phrase for it, and an atom if it needs no parentheses. -/
structure Printed (e : Expr) : Prop where
  operation : ∀ {behind rest}, Parted behind → Gap behind rest →
    Derives (.operation 0) (textEnding e) (e.text.toList ++ behind) e rest
  atom : e.isAtomic = true → ∀ {behind rest}, Parted behind → Gap behind rest →
    Derives .atom .closed (e.text.toList ++ behind) e rest

/-- A text that is an atom serves in every place. -/
theorem printed_of_atom (hclosed : textEnding e = .closed)
    (h : ∀ {behind rest}, Parted behind → Gap behind rest →
      Derives .atom .closed (e.text.toList ++ behind) e rest) : Printed e :=
  ⟨fun hp hg => hclosed ▸ .operand (.single (h hp hg)), fun _ => h⟩

/-- An operand is an atom once it is enclosed. -/
theorem Printed.enclosed (h : Printed e) (hp : Parted behind) (hg : Gap behind rest) :
    Derives .atom .closed ((Expr.enclose e.isAtomic e.text).toList ++ behind) e rest := by
  cases hi : e.isAtomic with
  | true => exact h.atom hi hp hg
  | false =>
    rw [Expr.enclose, if_neg (by decide), String.toList_append, String.toList_append,
      List.append_assoc, List.append_assoc]
    exact .parens (sign_append "(" gap_self) (h.operation parted_closing gap_self)
      (sign_append ")" hg)

/-- **The text of a legal expression is derived.** -/
theorem printed_of_legal (e : Expr) (h : e.Legal) : Printed e := by
  induction e with
  | var name => exact printed_of_atom rfl fun hp hg => .var ⟨h, word_append name hp hg⟩
  | lit literal =>
    cases literal with
    | int n => exact printed_of_atom rfl fun hp hg => .number (number_append h hp hg)
    | bool b =>
      cases b with
      | true => exact printed_of_atom rfl fun hp hg => .yes (word_append "True" hp hg)
      | false => exact printed_of_atom rfl fun hp hg => .no (word_append "False" hp hg)
  | prim op lhs rhs ihl ihr =>
    refine ⟨fun hp hg => ?_, nofun⟩
    simp only [Expr.text, String.toList_append, List.append_assoc]
    -- Enclosed operands are atoms, which fit below every operator.
    exact .join (Nat.zero_le _) (.operand (.single ((ihl h.1).enclosed parted_space gap_space)))
      (sign_append op.text gap_space) (.operand (.single ((ihr h.2).enclosed hp hg)))
  | ite condition consequent alternative ihc ihy ihn =>
    refine ⟨fun hp hg => ?_, nofun⟩
    simp only [Expr.text, String.toList_append, List.append_assoc]
    exact .operand (.single (.ite (word_append "if" parted_space gap_space)
      ((ihc h.1).operation parted_space gap_space) (word_append "then" parted_space gap_space)
      ((ihy h.2.1).operation parted_space gap_space) (word_append "else" parted_space gap_space)
      ((ihn h.2.2).operation hp hg)))
  | app function argument ihf iha =>
    refine ⟨fun hp hg => ?_, nofun⟩
    simp only [Expr.text, String.toList_append, List.append_assoc]
    exact .operand (.apply (.single ((ihf h.1).enclosed parted_space gap_space))
      ((iha h.2).enclosed hp hg))
  | lam param type body ih =>
    refine ⟨fun hp hg => ?_, nofun⟩
    simp only [Expr.text, String.toList_append, List.append_assoc]
    exact .operand (.single (.lam (sign_append "\\" gap_self)
      ⟨h.1, word_append param parted_space gap_space⟩ (sign_append ":" gap_space)
      (derivesType_false_of (derivesType_text parted_space gap_space)) (sign_append "." gap_space)
      ((ih h.2).operation hp hg)))

end Derivation

/-- The text of a type is read back as the type. -/
theorem Ty.parse_eq_ok_of_text (type : Ty) : Ty.parse type.text = .ok type := by
  have hd : Derivation.DerivesType (!type.isArrow) (type.text.toList ++ []) type [] :=
    Derivation.derivesType_text Derivation.parted_nil Derivation.gap_self
  rw [List.append_nil] at hd
  exact Derivation.parseType_eq_ok_iff.mpr
    ⟨_, Derivation.gap_self, Derivation.derivesType_false_of hd⟩

/-- **The text of a legal expression is read back as the expression.** -/
theorem parse_text (e : Expr) (h : e.Legal) : Expr.parse e.text = .ok e := by
  have hd := (Derivation.printed_of_legal e h).operation Derivation.parted_nil Derivation.gap_self
  rw [List.append_nil] at hd
  exact Derivation.parse_eq_ok_iff.mpr ⟨_, _, Derivation.gap_self, hd⟩

/-- A function whose body has each kind of operand, bare and in parentheses. -/
def layered : Expr :=
  .lam "f\x27" (.arrow (.arrow .int .bool) .int)
    (.prim .mul
      (.prim .add (.lit (.int 0)) (.app (.var "f\x27")
        (.lam "x_1" .int (.prim .less (.var "x_1") (.lit (.int 9223372036854775807))))))
      (.ite (.lit (.bool true)) (.lit (.int 10)) (.prim .add (.lit (.int 1)) (.var "then1"))))

/-- The printed text is read back, with its parentheses in the right places. -/
theorem parse_text_layered : layered.Legal ∧ Expr.parse layered.text = .ok layered := by
  have h : layered.Legal := by decide
  exact ⟨h, parse_text layered h⟩

/-! ## What is read -/

namespace Derivation

variable {s rest : List Char} {e : Expr}

theorem Number.nonneg {n : Int64} (h : Number n s rest) : 0 ≤ n := by
  obtain ⟨digits, hvalue, behind, hs, hnum, -⟩ := h
  exact (decimal_iff.mpr ⟨digits, hvalue, hs, hnum⟩).nonneg

/-- **Every expression that is derived is legal.** -/
theorem Derives.legal {category : Category} {ending : Ending}
    (h : Derives category ending s e rest) : e.Legal := by
  induction h with
  | parens _ _ _ ih => exact ih
  | yes _ | no _ => exact trivial
  | number h => exact h.nonneg
  | var h => exact h.1
  | ite _ _ _ _ _ _ ihc ihy ihn => exact ⟨ihc, ihy, ihn⟩
  | lam _ hp _ _ _ _ ih => exact ⟨hp.1, ih⟩
  | single _ ih => exact ih
  | apply _ _ ihf iha => exact ⟨ihf, iha⟩
  | operand _ ih => exact ih
  | join _ _ _ _ ihl ihr => exact ⟨ihl, ihr⟩

theorem Printed.program (h : Printed e) : Program e.text.toList e := by
  have hd := h.operation parted_nil gap_self
  rw [List.append_nil] at hd
  exact ⟨_, _, gap_self, hd⟩

end Derivation

/-- Only legal expressions are read. -/
theorem Expr.legal_of_parse {source : String} {e : Expr} (h : Expr.parse source = .ok e) :
    e.Legal := by
  obtain ⟨start, ending, -, hd⟩ := Derivation.parse_eq_ok_iff.mp h
  exact hd.legal

/-- An integer that is not negative is in the range of literals. -/
theorem nonneg_iff_literal {n : Int64} :
    0 ≤ n ↔ 0 ≤ n.toInt ∧ n.toInt ≤ 9223372036854775807 := by
  have hlt : n.toInt < 2 ^ 63 := n.toInt_lt
  rw [Int64.le_iff_toInt_le]
  refine (and_iff_left ?_).symm
  omega

/--
**The image of reading.** The expressions that are read from some text are those in which every name
is an identifier and every integer is in the range of literals, and each of them is read back from
its own text.
-/
theorem image_of_reading (e : Expr) :
    ((∃ source, Expr.parse source = .ok e) ↔
      (∀ name ∈ e.names, Derivation.IsIdentifier name) ∧
        ∀ n ∈ e.integers, 0 ≤ n.toInt ∧ n.toInt ≤ 9223372036854775807) ∧
    ((∃ source, Expr.parse source = .ok e) ↔ Expr.parse e.text = .ok e) := by
  have hlegal : (∃ source, Expr.parse source = .ok e) → e.Legal := by
    rintro ⟨source, h⟩
    exact Expr.legal_of_parse h
  have htext : e.Legal → Expr.parse e.text = .ok e := fun h =>
    Derivation.parse_eq_ok_iff.mpr (Derivation.printed_of_legal e h).program
  have hiff := e.legal_iff
  simp only [nonneg_iff_literal] at hiff
  constructor
  · exact ⟨fun h => hiff.mp (hlegal h), fun h => ⟨e.text, htext (hiff.mpr h)⟩⟩
  · exact ⟨fun h => htext (hlegal h), fun h => ⟨e.text, h⟩⟩

end TypedLambda
