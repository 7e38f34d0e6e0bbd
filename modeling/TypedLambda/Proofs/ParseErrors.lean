import Mathlib.Control.Monad.Basic
import TypedLambda.Expr.Parse
import TypedLambda.Proofs.Parser.Reports

/-!
# What a failed parse reports

Reading can fail in few ways. Where an atom could start and none does, all that could start one is
missing; the same holds of types. Everywhere else a single token is missing, or an operator is used
twice that cannot be. All dead ends of a failed parse lie at one place, so each line of its message
is about that place.

The reports are found by following the grammar: which problems a phrase lists where it cannot start,
and which ones it passes on from inside.
-/

namespace TypedLambda

namespace Phrase

open Rule

/-! ## The reports -/

/-- What could start an atom of an expression. -/
def atomProblems : List Problem :=
  [.expectingSymbol "(", .expectingKeyword "True", .expectingKeyword "False", .expectingInt,
    .expectingVariable, .expectingKeyword "if", .expectingSymbol "\\"]

/-- What could start an atom of a type. -/
def typeAtomProblems : List Problem :=
  [.expectingSymbol "(", .expectingKeyword "Int", .expectingKeyword "Bool"]

/-- What a failed parse of a type reports. -/
def typeReports : List (List Problem) :=
  [typeAtomProblems, [.expectingSymbol ")"], [.expectingEnd]]

/-- What a failed parse of an expression reports. -/
def expressionReports : List (List Problem) :=
  [atomProblems, typeAtomProblems, [.expectingSymbol ")"], [.expectingSymbol ":"],
    [.expectingSymbol "."], [.expectingKeyword "then"], [.expectingKeyword "else"],
    [.expectingVariable], [.expectingEnd],
    [.custom "ambiguous use of a non associative operator"]]

/-- What a failed parse of a phrase reports. -/
def reports : {α : Type} → Phrase α → List (List Problem)
  | _, expression => expressionReports
  | _, type => typeReports

variable {call : {α : Type} → Phrase α → Parser α} {listed : List (List Problem)}

/-- A level of infix operators of one associativity reports nothing but an ambiguity. -/
theorem uniform_infixed {α : Type} {operators : List (Operator Phrase α)} {only : Associativity}
    (h : ∀ operator ∈ operators, ∃ text combine, text ≠ "" ∧ operator = infixed text combine only)
    (hnon : only = .non → [Associativity.non.ambiguous] ∈ listed) :
    Uniform call listed operators only := by
  refine ⟨?_, hnon, ?_, ?_⟩ <;> intro operator hmem <;>
    obtain ⟨text, combine, hne, rfl⟩ := h operator hmem
  · rfl
  · exact (reports_map _ (reports_sign text)).refuses
  · exact (progressive_sign hne).bind

/-! ## Types -/

theorem reports_typeRule (hsub : typeReports ⊆ listed) (h : (call Phrase.type).Fails listed) :
    (typeRule.denote call).Reports typeAtomProblems listed := by
  have hatom : (typeAtom.denote call).Reports typeAtomProblems listed :=
    (reports_parens h (hsub (by simp [typeReports]))).orElse
      ((reports_map _ (reports_word "Int")).orElse
        ((reports_map _ (reports_word "Bool")).orElse Parser.reports_nothing))
  refine reports_table hatom (hsub (by simp [typeReports])) ?_
  simp only [List.mem_cons, List.not_mem_nil, or_false, forall_eq]
  refine ⟨.right, uniform_infixed ?_ nofun⟩
  simp only [List.mem_cons, List.not_mem_nil, or_false, forall_eq]
  exact ⟨"->", Ty.arrow, by decide, rfl⟩

/-- **A type reports what its reports list**, to whatever depth names are unfolded. -/
theorem fails_type (hsub : typeReports ⊆ listed) (depth : Nat) :
    (grammar.call depth Phrase.type).Fails listed := by
  induction depth with
  | zero => exact Parser.fails_never
  | succ depth ih => exact (reports_typeRule hsub ih).fails (hsub (by simp [typeReports]))

/-! ## Expressions -/

section

variable (he : (call expression).Fails expressionReports)
include he

theorem reports_conditional :
    (conditional.denote call).Reports [.expectingKeyword "if"] expressionReports := by
  have hif : ((word "if").denote call).Progressive :=
    (Parser.progressive_token (by decide) _ _).bind
  have hthen : ((word "then").denote call).Fails expressionReports :=
    (reports_word "then").fails (by simp [expressionReports])
  have helse : ((word "else").denote call).Fails expressionReports :=
    (reports_word "else").fails (by simp [expressionReports])
  refine Parser.Reports.bind (reports_word "if") (fun _ => ?_) (Or.inl hif)
  exact he.bind fun _ => hthen.bind fun _ => he.bind fun _ => helse.bind fun _ => he.bind fun _ =>
    Parser.fails_succeed _

theorem reports_function (ht : (call Phrase.type).Fails expressionReports) :
    (function.denote call).Reports [.expectingSymbol "\\"] expressionReports := by
  have hlambda : ((sign "\\").denote call).Progressive := progressive_sign (by decide)
  have hparam : (identifier.denote call).Fails expressionReports :=
    (reports_spaced (Parser.reports_name _)).fails (by simp [expressionReports])
  have hcolon : ((sign ":").denote call).Fails expressionReports :=
    (reports_sign ":").fails (by simp [expressionReports])
  have hdot : ((sign ".").denote call).Fails expressionReports :=
    (reports_sign ".").fails (by simp [expressionReports])
  refine Parser.Reports.bind (reports_sign "\\") (fun _ => ?_) (Or.inl hlambda)
  exact hparam.bind fun _ => hcolon.bind fun _ => ht.bind fun _ => hdot.bind fun _ =>
    he.bind fun _ => Parser.fails_succeed _

/-- An atom is missing where none of its kinds starts; all of them are reported. -/
theorem reports_atom (ht : (call Phrase.type).Fails expressionReports) :
    (atom.denote call).Reports atomProblems expressionReports := by
  have hkey : ∀ (text : String) (value : Literal),
      (((keyword text).map fun _ => value).denote call).Reports [.expectingKeyword text]
        expressionReports :=
    fun text value => reports_map _ (Parser.reports_token _ _ _)
  have hboolean : (boolean.denote call).Reports
      [.expectingKeyword "True", .expectingKeyword "False"] expressionReports :=
    reports_spaced ((hkey "True" _).orElse ((hkey "False" _).orElse Parser.reports_nothing))
  have hnumber : (number.denote call).Reports [.expectingInt] expressionReports :=
    reports_map _ (reports_spaced (Parser.reports_backtrackable fun _ _ _ _ => Parser.int_fails))
  have hname : (identifier.denote call).Reports [.expectingVariable] expressionReports :=
    reports_spaced (Parser.reports_name _)
  have hparens := reports_parens (r := ref expression) he (by simp [expressionReports])
  exact hparens.orElse ((reports_map _ hboolean).orElse ((reports_map _ hnumber).orElse
    ((reports_map _ hname).orElse ((reports_conditional he).orElse
      ((reports_function he ht).orElse Parser.reports_nothing)))))

/-- An expression is missing where an atom is. -/
theorem reports_expressionRule (ht : (call Phrase.type).Fails expressionReports) :
    (expressionRule.denote call).Reports atomProblems expressionReports := by
  have hatom := reports_atom he ht
  have hrow : (atom.many1.denote call).Reports atomProblems expressionReports := by
    refine hatom.bind (fun first => hatom.refuses.many.bind fun others =>
      Parser.fails_succeed (first, others)) (Or.inr fun first => ?_)
    exact (Parser.commits_many _).bind fun others => Parser.commits_succeed (first, others)
  refine reports_table (reports_map _ hrow) (by simp [expressionReports]) ?_
  have hlevel : ∀ (ops : List Op) (only : Associativity),
      Uniform call expressionReports (ops.map fun op => binary op only) only := by
    intro ops only
    refine uniform_infixed (fun operator hmem => ?_) fun _ => by decide
    obtain ⟨op, -, rfl⟩ := List.mem_map.mp hmem
    exact ⟨op.text, Expr.prim op, by cases op <;> decide, rfl⟩
  simp only [operatorTable, List.mem_cons, List.not_mem_nil, or_false, forall_eq_or_imp, forall_eq]
  exact ⟨⟨_, hlevel [.or] .right⟩, ⟨_, hlevel [.and] .right⟩, ⟨_, hlevel [.equal] .non⟩,
    ⟨_, hlevel [.less, .greater] .non⟩, ⟨_, hlevel [.add] .left⟩, ⟨_, hlevel [.mul] .left⟩⟩

end

/-- **An expression reports what its reports list**, to whatever depth names are unfolded. -/
theorem fails_expression (depth : Nat) :
    (grammar.call depth expression).Fails expressionReports := by
  induction depth with
  | zero => exact Parser.fails_never
  | succ depth ih =>
    have ht : (grammar.call depth Phrase.type).Fails expressionReports :=
      fails_type (by decide) depth
    exact (reports_expressionRule ih ht).fails (by simp [expressionReports])

/-! ## Whole texts -/

/-- A whole text fails with a listed report, the missing end included. -/
theorem fails_whole {α : Type} (x : Phrase α) (depth : Nat) :
    (grammar.denote depth (x.whole.skip .endOfInput)).Fails x.reports := by
  have hphrase : (grammar.call depth x).Fails x.reports := by
    cases x with
    | expression => exact fails_expression depth
    | type => exact fails_type (List.Subset.refl _) depth
  have hend : Parser.endOfInput.Fails x.reports :=
    Parser.reports_endOfInput.fails (by cases x <;> decide)
  exact ((Parser.fails_chompWhile isLayout).bind fun _ => hphrase).bind fun value =>
    hend.bind fun _ => Parser.fails_succeed value

theorem reported_of_read {α : Type} {x : Phrase α} {source : String} {err : ParseError}
    (h : x.read source = .error err) : Reported x.reports err.deadEnds := by
  obtain ⟨⟨step, stop⟩, hreply, hstep⟩ := Option.map_eq_some_iff.mp (x.run_whole source)
  have hbad : step.toExcept = .error err := hstep.trans h
  cases step with
  | good => cases hbad
  | bad progress problems =>
    cases hbad
    exact fails_whole x _ hreply

/-- No report is empty, and the wording of a problem never breaks a line. -/
theorem reports_legible {α : Type} (x : Phrase α) :
    ∀ report ∈ x.reports, report ≠ [] ∧ ∀ problem ∈ report, '\n' ∉ problem.message.toList := by
  cases x <;> decide +kernel

end Phrase

/-! ## Lines -/

/-- The lines of a text. -/
def lines (text : String) : List String := (text.toList.splitOn '\n').map String.ofList

theorem isDigit_of_mem_repr {n : Nat} {a : Char} (h : a ∈ n.repr.toList) : a.isDigit = true := by
  rw [Nat.toList_repr] at h
  exact Nat.isDigit_of_mem_toDigits (by decide) (by decide) h

/-- A natural number is spelled with digits only. -/
theorem not_mem_repr {a : Char} (ha : a.isDigit = false) (n : Nat) : a ∉ n.repr.toList := by
  intro hmem
  rw [isDigit_of_mem_repr hmem] at ha
  cases ha

theorem DeadEnd.not_mem_message {d : DeadEnd} (h : '\n' ∉ d.problem.message.toList) :
    '\n' ∉ d.message.toList := by
  have hdigits : ∀ n, '\n' ∉ Nat.toDigits 10 n := fun n hn =>
    not_mem_repr (by decide) n (Nat.toList_repr ▸ hn)
  simp [message, h, hdigits]

/-- A message has a line for each dead end, since no wording has a line feed. -/
theorem lines_message {err : ParseError} (hne : err.deadEnds ≠ [])
    (h : ∀ d ∈ err.deadEnds, '\n' ∉ d.problem.message.toList) :
    lines err.message = err.deadEnds.map DeadEnd.message := by
  have hsplit : (err.message.toList).splitOn '\n' =
      (err.deadEnds.map DeadEnd.message).map String.toList := by
    rw [ParseError.message, String.toList_intercalate]
    refine List.splitOn_intercalate '\n' ?_ (by simpa using hne)
    simp only [List.map_map, List.mem_map, Function.comp_apply, forall_exists_index, and_imp]
    rintro _ d hd rfl
    exact DeadEnd.not_mem_message (h d hd)
  rw [lines, hsplit, List.map_map]
  simp

theorem Phrase.read_error {α : Type} {x : Phrase α} {source : String} {err : ParseError}
    (h : x.read source = .error err) :
    err.deadEnds ≠ [] ∧ Reported x.reports err.deadEnds ∧
      lines err.message = err.deadEnds.map DeadEnd.message := by
  obtain ⟨report, hmem, row, column, heq⟩ := reported_of_read h
  obtain ⟨hne, hlegible⟩ := x.reports_legible report hmem
  have hnonempty : err.deadEnds ≠ [] := by simpa [heq] using hne
  refine ⟨hnonempty, ⟨report, hmem, row, column, heq⟩, lines_message hnonempty fun d hd => ?_⟩
  rw [heq, List.mem_map] at hd
  obtain ⟨problem, hproblem, rfl⟩ := hd
  exact hlegible problem hproblem

/--
**The shape of a failed parse.** There are dead ends, all at one place, and their problems are one
of the reports of the phrase; the lines of the message are those of the dead ends, one for each.
-/
theorem parse_error_reports (source : String) (err : ParseError) :
    (Expr.parse source = .error err →
      err.deadEnds ≠ [] ∧
      (∃ report ∈ Phrase.expressionReports, ∃ row column,
        err.deadEnds = report.map (DeadEnd.mk row column)) ∧
      lines err.message = err.deadEnds.map DeadEnd.message) ∧
    (Ty.parse source = .error err →
      err.deadEnds ≠ [] ∧
      (∃ report ∈ Phrase.typeReports, ∃ row column,
        err.deadEnds = report.map (DeadEnd.mk row column)) ∧
      lines err.message = err.deadEnds.map DeadEnd.message) :=
  ⟨Phrase.read_error, Phrase.read_error⟩

/-- An argument is missing on the second line, and a type behind an arrow. -/
theorem parse_error_reports_missing :
    (Expr.parse "f\n(" = .error ⟨Phrase.atomProblems.map (DeadEnd.mk 2 2)⟩ ∧
      (lines (ParseError.message ⟨Phrase.atomProblems.map (DeadEnd.mk 2 2)⟩)).length = 7) ∧
    Ty.parse "Int ->" = .error ⟨Phrase.typeAtomProblems.map (DeadEnd.mk 1 7)⟩ ∧
      (lines (ParseError.message ⟨Phrase.typeAtomProblems.map (DeadEnd.mk 1 7)⟩)).length = 3 := by
  have hexpression : Expr.parse "f\n(" = .error ⟨Phrase.atomProblems.map (DeadEnd.mk 2 2)⟩ := by
    decide +kernel
  have htype : Ty.parse "Int ->" = .error ⟨Phrase.typeAtomProblems.map (DeadEnd.mk 1 7)⟩ := by
    decide +kernel
  obtain ⟨-, -, hlines⟩ := (parse_error_reports _ _).1 hexpression
  obtain ⟨-, -, hlines'⟩ := (parse_error_reports _ _).2 htype
  exact ⟨⟨hexpression, by rw [hlines]; rfl⟩, htype, by rw [hlines']; rfl⟩

end TypedLambda
