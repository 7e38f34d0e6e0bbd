import TypedLambda.Proofs.Grammar.Lexical
import TypedLambda.Proofs.Precedence.Table

/-!
# The operators of the grammar as tables

The ranks and groupings of the grammar are those of the two tables of the parser, one for the binary
operators and one for the arrow of types. What a grouped tree allows below an operator is what the
grammar allows on its two sides (`below_left_iff`, `below_right_iff`).
-/

namespace TypedLambda.Derivation

open Precedence

/-! ## Expressions -/

/-- An operator with its place in the table. -/
def ranked (op : Op) : Ranked Expr := ⟨⟨op.text, op.grouping, .prim op⟩, op.rank⟩

def expressionLevels : List (List (Connective Expr)) :=
  [[.or], [.and], [.equal], [.less, .greater], [.add], [.mul]].map
    (·.map fun op => (ranked op).toConnective)

/-- The name of expressions stands for the table of operators over terms. -/
theorem call_expression (depth : Nat) :
    Phrase.grammar.call (depth + 1) .expression
      = (tableRule expressionLevels Phrase.term).denote (Phrase.grammar.call depth) := rfl

/-- No operator of expressions can be mistaken for another. -/
theorem legible_expressionLevels : Legible expressionLevels := by
  constructor
  · unfold expressionLevels ranked
    decide
  · unfold expressionLevels ranked Exclusive
    decide

/-- The table lists the operators with their ranks. -/
theorem listed_expressionLevels_iff {op : Ranked Expr} :
    Listed 0 expressionLevels op ↔ ∃ o, op = ranked o := by
  constructor
  · obtain ⟨connective, rank⟩ := op
    simp only [expressionLevels, List.map_cons, List.map_nil, listed_cons_iff, not_listed_nil,
      OnLevel, List.mem_cons, List.not_mem_nil, or_false]
    rintro (⟨rfl, rfl⟩ | ⟨rfl, rfl⟩ | ⟨rfl, rfl⟩ | ⟨rfl, rfl | rfl⟩ | ⟨rfl, rfl⟩ | ⟨rfl, rfl⟩)
    · exact ⟨.or, rfl⟩
    · exact ⟨.and, rfl⟩
    · exact ⟨.equal, rfl⟩
    · exact ⟨.less, rfl⟩
    · exact ⟨.greater, rfl⟩
    · exact ⟨.add, rfl⟩
    · exact ⟨.mul, rfl⟩
  · rintro ⟨o, rfl⟩
    cases o with
    | or => exact ⟨0, _, rfl, rfl, .head _⟩
    | and => exact ⟨1, _, rfl, rfl, .head _⟩
    | equal => exact ⟨2, _, rfl, rfl, .head _⟩
    | less => exact ⟨3, _, rfl, rfl, .head _⟩
    | greater => exact ⟨3, _, rfl, rfl, .tail _ (.head _)⟩
    | add => exact ⟨4, _, rfl, rfl, .head _⟩
    | mul => exact ⟨5, _, rfl, rfl, .head _⟩

/-- A left operand may have the operators of the rank that the grammar allows there. -/
theorem below_left_iff {op other : Op} :
    Precedence.Tree.Below .left (ranked op) (ranked other) ↔ op.leftRank ≤ other.rank := by
  cases op <;> cases other <;> decide

theorem below_right_iff {op other : Op} :
    Precedence.Tree.Below .right (ranked op) (ranked other) ↔ op.rightRank ≤ other.rank := by
  cases op <;> cases other <;> decide

/-! ## Types -/

/-- The arrow with its place in the table. -/
def arrow : Ranked Ty := ⟨⟨"->", .right, .arrow⟩, 0⟩

theorem call_type (depth : Nat) :
    Phrase.grammar.call (depth + 1) .type
      = (tableRule [[arrow.toConnective]] Phrase.typeAtom).denote (Phrase.grammar.call depth) := rfl

theorem legible_arrow : Legible [[arrow.toConnective]] := by
  constructor
  · unfold arrow
    decide
  · unfold arrow Exclusive
    decide

theorem listed_arrow_iff {op : Ranked Ty} : Listed 0 [[arrow.toConnective]] op ↔ op = arrow := by
  rw [listed_cons_iff, or_iff_left not_listed_nil]
  constructor
  · rintro ⟨hrank, hmem⟩
    obtain ⟨connective, rank⟩ := op
    obtain rfl : connective = arrow.toConnective := List.mem_singleton.mp hmem
    obtain rfl : rank = 0 := hrank
    rfl
  · rintro rfl
    exact ⟨rfl, List.mem_singleton.mpr rfl⟩

/-! ## An operator and the layout behind it -/

/-- An operator that is read is a piece of punctuation of the grammar. -/
theorem sign_after {α : Type} {op : Connective α} {c : Cursor} (h : op.StartsAt c) :
    Sign op.text c.rest (op.after c).rest ∧ Stops Blank (op.after c).rest := by
  rw [Connective.after, ← String.length_toList]
  exact token_iff.mpr ⟨⟨h, trivial⟩, rfl⟩

theorem startsAt_of_sign {α : Type} (op : Connective α) {c : Cursor} {rest : List Char}
    (h : Sign op.text c.rest rest) (hb : Stops Blank rest) :
    op.StartsAt c ∧ (op.after c).rest = rest := by
  rw [Connective.after, ← String.length_toList]
  obtain ⟨hbegins, hrest⟩ := token_iff.mp ⟨h, hb⟩
  exact ⟨hbegins.1, hrest⟩

/-! ## Chains that a table reads -/

/-- Succeeds and does not go back. -/
def Operand {α : Type} (p : Parser α) (c : Cursor) (value : α) (stop : Cursor) : Prop :=
  p.Yields c value stop ∧ stop.rest.length ≤ c.rest.length

/-- A grouped tree of some operators has a value and is written in front of a text. -/
def Chained {α : Type} (p : Parser α) (Here : Ranked α → Prop) (c : Cursor) (value : α)
    (rest : List Char) : Prop :=
  ∃ (t : Precedence.Tree α) (stop : Cursor), t.Grouped ∧ (∀ op ∈ t.ops, Here op) ∧
    t.WrittenBy (Operand p) c stop ∧ t.value = value ∧ stop.rest = rest

section

variable {α : Type} {p : Parser α} {Here Left Right : Ranked α → Prop} {c : Cursor}
  {s₁ s₂ rest : List Char} {value lhs rhs : α}

theorem Chained.leaf (h : Leaves p c value rest) (hle : rest.length ≤ c.rest.length) :
    Chained p Here c value rest := by
  obtain ⟨stop, h, rfl⟩ := h
  exact ⟨.leaf value, stop, trivial, by simp, .last ⟨h, hle⟩, rfl, rfl⟩

/-- Two chains and an operator between them that may stand above both. -/
theorem Chained.node (hl : Chained p Left c lhs s₁) (op : Ranked α) (ho : Sign op.text s₁ s₂)
    (hb : Stops Blank s₂) (hr : ∀ {c : Cursor}, c.rest = s₂ → Chained p Right c rhs rest)
    (hop : Here op)
    (hleft : ∀ other, Left other → Precedence.Tree.Below .left op other ∧ Here other)
    (hright : ∀ other, Right other → Precedence.Tree.Below .right op other ∧ Here other) :
    Chained p Here c (op.combine lhs rhs) rest := by
  obtain ⟨t₁, mid, hg₁, hin₁, hw₁, rfl, rfl⟩ := hl
  obtain ⟨hstart, hafter⟩ := startsAt_of_sign op.toConnective ho hb
  obtain ⟨t₂, stop, hg₂, hin₂, hw₂, rfl, rfl⟩ := hr hafter
  refine ⟨.node op t₁ t₂, stop, ⟨hg₁, hg₂, fun other hmem => (hleft other (hin₁ other hmem)).1,
    fun other hmem => (hright other (hin₂ other hmem)).1⟩, fun other => ?_, ?_, rfl, rfl⟩
  · exact mem_ops_node hop (fun other hmem => (hleft other (hin₁ other hmem)).2)
      fun other hmem => (hright other (hin₂ other hmem)).2
  · exact writtenBy_node_iff.mpr ⟨mid, hw₁, hstart, hw₂⟩

/-- A table reads a chain behind which none of its operators starts. -/
theorem Chained.leaves {levels : List (List (Connective α))} {term : Rule Phrase α}
    {call : {α : Type} → Phrase α → Parser α} (hl : Legible levels)
    (h : Chained (term.denote call) Here c value rest)
    (hin : ∀ op, Here op → Listed 0 levels op)
    (hquiet : ∀ op, Listed 0 levels op → ¬op.text.toList <+: rest) :
    Leaves ((tableRule levels term).denote call) c value rest := by
  obtain ⟨t, stop, hg, hops, hw, rfl, rfl⟩ := h
  refine ⟨stop, ?_, rfl⟩
  exact hl.gives (fun _ _ _ h => h) hg (fun op hmem => hin op (hops op hmem)) hw (.quiet hquiet)

end

end TypedLambda.Derivation
