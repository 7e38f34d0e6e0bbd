import TypedLambda.Proofs.Grammar.Soundness
import TypedLambda.Proofs.Termination

/-!
# Where phrases stop

An expression or a type is read as far as it goes. It may end inside of conditionals, functions and
chains of any level, and wherever that is, every level on the way out has looked for its operators
and every row for a further atom. So none of them starts where the phrase stops, and no layout is
left there.
-/

namespace TypedLambda.Phrase

open TypedLambda.Derivation TypedLambda.Precedence

variable {α : Type} {depth : Nat} {c stop : Cursor}

/-- A phrase reads at least one character. -/
theorem exists_spans_of_call {x : Phrase α} {value : α}
    (h : (grammar.call depth x).Yields c value stop) :
    ∃ first others, c.Spans (first :: others) stop := by
  have hlt : c.position.offset < stop.position.offset :=
    offset_lt_of_settles (r := .ref x) (fun deep => settles_call deep x) h
  obtain ⟨text, hspans⟩ := Parser.Forward.yields (grammar.forward_call depth x) h
  cases text with
  | nil =>
    have hstop := hspans.offset_lt_iff.mp hlt
    rw [hspans.rest] at hstop
    exact absurd hstop (Nat.lt_irrefl _)
  | cons first others => exact ⟨first, others, hspans⟩

/-- The arrow is the only operator of types, and none starts behind a type. -/
theorem not_arrow_of_call {type : Ty}
    (h : (grammar.call depth Phrase.type).Yields c type stop) : ¬"->".toList <+: stop.rest := by
  cases depth with
  | zero => exact absurd h Parser.not_yields_never
  | succ depth =>
    rw [call_type] at h
    obtain ⟨t, -, -, -, -, hquiet⟩ := legible_arrow.parsed 0 h
    exact hquiet arrow (listed_arrow_iff.mpr rfl)

/--
**Phrases do not stop early.** An expression reads at least one character, and where it stops there
is no layout, no operator starts, and an atom fails without progress. A type reads at least one
character, and where it stops there is no layout and no arrow starts.
-/
theorem phrases_never_stop_early (depth : Nat) (c stop : Cursor) :
    (∀ e, (grammar.call depth expression).Yields c e stop →
      (∃ first others, c.Spans (first :: others) stop) ∧ Stops Blank stop.rest ∧
        (∀ op : Op, ¬op.text.toList <+: stop.rest) ∧
        ∀ deep, (atom.denote (grammar.call deep)).Passes stop) ∧
    ∀ type, (grammar.call depth Phrase.type).Yields c type stop →
      (∃ first others, c.Spans (first :: others) stop) ∧ Stops Blank stop.rest ∧
        ¬"->".toList <+: stop.rest := by
  constructor
  · intro e h
    obtain ⟨-, hends⟩ := (sound_call depth).expression h
    exact ⟨exists_spans_of_call h, hends.blank, hends.ops, fun deep =>
      passes_atom_iff.mpr hends.opens⟩
  · intro type h
    exact ⟨exists_spans_of_call h, ((sound_call depth).type h).blank, not_arrow_of_call h⟩

/-- A function whose body ends at a closing parenthesis, and its type, which ends at the point. -/
theorem phrases_never_stop_early_function :
    (∃ first others, (Cursor.start "\\x:Int->Bool .x 1 ) y").Spans (first :: others)
        ⟨⟨18, 1, 19⟩, ") y".toList⟩) ∧
      (atom.denote (grammar.call 9)).Passes ⟨⟨18, 1, 19⟩, ") y".toList⟩ ∧
      ¬"->".toList <+: ".x 1 ) y".toList := by
  have hexpression := (phrases_never_stop_early 3 (.start "\\x:Int->Bool .x 1 ) y")
    ⟨⟨18, 1, 19⟩, ") y".toList⟩).1 (.lam "x" (.arrow .int .bool) (.app (.var "x") (.lit (.int 1))))
    ⟨true, by decide +kernel⟩
  have htype := (phrases_never_stop_early 2 ((Cursor.start "\\x:Int->Bool .x 1 ) y").advanceBy 3)
    ⟨⟨13, 1, 14⟩, ".x 1 ) y".toList⟩).2 (.arrow .int .bool) ⟨true, by decide +kernel⟩
  exact ⟨hexpression.1, hexpression.2.2.2 9, htype.2.2⟩

end TypedLambda.Phrase
