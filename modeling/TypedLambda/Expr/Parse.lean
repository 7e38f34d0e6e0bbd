import TypedLambda.Expr.Grammar
import TypedLambda.Parser.Settles

/-!
# Reading expressions and types

A text is read by running the rule of expressions, or of types, over all of it, after layout at its
start. The result is a tree or the dead ends met.

## Termination

A phrase is used inside another only behind a token, so names nested to a depth above the number of
characters left are deep enough (`Phrase.settles_call`). The reader therefore has no depth among its
arguments and always gives an answer.
-/

namespace TypedLambda.Phrase

open Rule

/-! ## Every run ends -/

variable {bound : Nat} {call : {α : Type} → Phrase α → Parser α}

theorem settles_typeRule (h : Parser.Settles bound 1 (call Phrase.type)) :
    (typeRule.denote call).Settles (bound + 1) 1 := by
  refine settles_table (settles_oneOf ?_) ?_
  · simp only [List.mem_cons, List.not_mem_nil, or_false, forall_eq_or_imp, forall_eq]
    exact ⟨settles_parens (h.mono (by omega) (by omega)),
      settles_map _ (settles_word (by decide)), settles_map _ (settles_word (by decide))⟩
  · simp only [List.mem_cons, List.not_mem_nil, or_false, forall_eq]
    exact settles_map _ (settles_sign (by decide))

theorem settles_conditional (h : Parser.Settles bound 1 (call expression)) :
    (conditional.denote call).Settles (bound + 1) 1 := by
  have hword : ∀ {text : String} {bound : Nat}, 1 ≤ text.length →
      ((word text).denote call).Settles bound 1 := settles_word
  have hexpr : ∀ bound' ≤ bound, Parser.Settles bound' 1 (call expression) :=
    fun bound' hb => h.mono hb (Nat.le_refl 1)
  refine Parser.Settles.mono (Parser.Settles.bind (hword (by decide)) fun _ =>
    (hexpr _ (by omega)).bind fun _ => (hword (by decide)).bind fun _ =>
    (hexpr _ (by omega)).bind fun _ => (hword (by decide)).bind fun _ =>
    (hexpr _ (by omega)).bind fun _ => Parser.settles_succeed _) (Nat.le_refl _) (by omega)

theorem settles_function (he : Parser.Settles bound 1 (call expression))
    (ht : Parser.Settles bound 1 (call Phrase.type)) :
    (function.denote call).Settles (bound + 1) 1 := by
  have hsign : ∀ {text : String} {bound : Nat}, 1 ≤ text.length →
      ((sign text).denote call).Settles bound 1 := settles_sign
  have hname : ∀ {bound : Nat}, (identifier.denote call).Settles bound 1 :=
    settles_spaced (Parser.settles_name _)
  refine Parser.Settles.mono (Parser.Settles.bind (hsign (by decide)) fun _ =>
    hname.bind fun _ => (hsign (by decide)).bind fun _ =>
    (ht.mono (by omega) (Nat.le_refl 1)).bind fun _ => (hsign (by decide)).bind fun _ =>
    (he.mono (by omega) (Nat.le_refl 1)).bind fun _ => Parser.settles_succeed _)
      (Nat.le_refl _) (by omega)

/-- Each alternative of an atom reads a character before it uses a name of the grammar. -/
theorem settles_atom (he : Parser.Settles bound 1 (call expression))
    (ht : Parser.Settles bound 1 (call Phrase.type)) :
    (atom.denote call).Settles (bound + 1) 1 := by
  have hkey : ∀ (text : String) (value : Bool), 1 ≤ text.length →
      (((keyword text).map fun _ => Literal.bool value).denote call).Settles (bound + 1) 1 :=
    fun text _ h => settles_map _ ((Parser.settles_token text _ _).mono (Nat.le_refl _) h)
  refine settles_oneOf ?_
  simp only [List.mem_cons, List.not_mem_nil, or_false, forall_eq_or_imp, forall_eq]
  refine ⟨settles_parens (he.mono (by omega) (by omega)),
    settles_map _ (settles_spaced (settles_oneOf ?_)),
    settles_map _ (settles_map _ (settles_spaced Parser.settles_int.backtrackable)),
    settles_map _ (settles_spaced (Parser.settles_name _)),
    settles_conditional he, settles_function he ht⟩
  simp only [List.mem_cons, List.not_mem_nil, or_false, forall_eq_or_imp, forall_eq]
  exact ⟨hkey "True" true (by decide), hkey "False" false (by decide)⟩

theorem settles_expressionRule (he : Parser.Settles bound 1 (call expression))
    (ht : Parser.Settles bound 1 (call Phrase.type)) :
    (expressionRule.denote call).Settles (bound + 1) 1 := by
  have hop : ∀ op a, ((binary op a).rule.denote call).Settles (bound + 1) 1 :=
    fun op _ => settles_map _ (settles_sign (by cases op <;> decide))
  refine settles_table (settles_map _ (settles_many1 (settles_atom he ht))) ?_
  simp only [operatorTable, List.mem_cons, List.not_mem_nil, or_false, forall_eq_or_imp, forall_eq]
  exact ⟨hop _ _, hop _ _, hop _ _, ⟨hop _ _, hop _ _⟩, hop _ _, hop _ _⟩

/-- **A phrase replies whenever names may be nested deeper than characters are left.** -/
theorem settles_call : ∀ (depth : Nat) {α : Type} (x : Phrase α),
    Parser.Settles depth 1 (grammar.call depth x)
  | 0, _, _ => fun _ h => absurd h (Nat.not_lt_zero _)
  | depth + 1, _, expression =>
    settles_expressionRule (settles_call depth expression) (settles_call depth Phrase.type)
  | depth + 1, _, Phrase.type => settles_typeRule (settles_call depth Phrase.type)

/-! ## The reader -/

/-- Reads layout and then a phrase. -/
def whole {α : Type} (x : Phrase α) : Rule Phrase α := spaces.skipLeft (ref x)

/-- One more level of nesting than there are characters is enough for a text. -/
theorem run_whole_isSome {α : Type} (x : Phrase α) (source : String) :
    (grammar.run (source.length + 1) x.whole source).isSome := by
  have hs : (spaces.denote (grammar.call (source.length + 1))).Settles (source.length + 1) 0 :=
    Parser.settles_chompWhile isLayout
  have he : (Rule.endOfInput.denote (grammar.call (source.length + 1))).Settles
      (source.length + 1 - (0 + 1)) 0 := Parser.settles_endOfInput
  have hlen : (Cursor.start source).rest.length < source.length + 1 := by
    simp only [Cursor.start, String.length_toList]
    omega
  have hx : ((ref x).denote (grammar.call (source.length + 1))).Settles
      (source.length + 1 - 0) 1 := settles_call (source.length + 1) x
  obtain ⟨r, hr, -⟩ :=
    settles_skip (settles_skipLeft hs hx) he (Cursor.start source) hlen
  have hr' : grammar.denote (source.length + 1) (x.whole.skip .endOfInput) (.start source)
      = some r := hr
  simp [Grammar.run, hr']

/-- Reads a phrase from the whole of a text; layout may surround it. -/
def read {α : Type} (x : Phrase α) (source : String) : Except ParseError α :=
  (grammar.run (source.length + 1) x.whole source).get (x.run_whole_isSome source)

theorem run_whole {α : Type} (x : Phrase α) (source : String) :
    grammar.run (source.length + 1) x.whole source = some (x.read source) := by
  rw [read, Option.some_get]

end TypedLambda.Phrase

namespace TypedLambda

/-- Reads an expression from a text. -/
def Expr.parse (source : String) : Except ParseError Expr := Phrase.expression.read source

/-- Reads a type from a text. -/
def Ty.parse (source : String) : Except ParseError Ty := Phrase.type.read source

end TypedLambda
