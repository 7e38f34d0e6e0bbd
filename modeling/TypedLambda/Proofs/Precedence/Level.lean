import TypedLambda.Proofs.Parser.Tokens
import TypedLambda.Proofs.Precedence.Tree

/-!
# One level

What a level does is decided by the operator that starts behind each of its operands. An operator of
the associativity of the chain goes on with it, no operator ends it, and every other operator of the
level is refused where it starts. The lemmas below say so for each of the three kinds of chains,
once for the runs that a given situation leads to and once backwards for the runs that succeed.
-/

namespace TypedLambda.Precedence

variable {α : Type} {l : Level α} {ops : List (Connective α)} {op other : Connective α}
  {c mid stop : Cursor} {lhs x value : α} {v : Verdict α} {problems : List DeadEnd}

namespace Connective

/-- The text of the operator is the next to be read. -/
def StartsAt (op : Connective α) (c : Cursor) : Prop := op.text.toList <+: c.rest

instance (op : Connective α) (c : Cursor) : Decidable (op.StartsAt c) :=
  inferInstanceAs (Decidable (_ <+: _))

/-- The cursor behind the operator and the layout that follows it. -/
def after (op : Connective α) (c : Cursor) : Cursor := (c.advanceBy op.text.length).skipLayout

end Connective

/-- The operator that starts at a cursor. -/
def next (ops : List (Connective α)) (c : Cursor) : Option (Connective α) :=
  ops.find? (·.StartsAt c)

theorem next_eq_none_iff : next ops c = none ↔ ∀ op ∈ ops, ¬op.StartsAt c := by
  simp [next, List.find?_eq_none]

theorem mem_of_next (h : next ops c = some op) : op ∈ ops ∧ op.StartsAt c :=
  ⟨List.mem_of_find?_eq_some h, by simpa using List.find?_some h⟩

/-- A level reads the given operators, each where its text starts, and no others. -/
structure Spells (l : Level α) (ops : List (Connective α)) : Prop where
  hit : ∀ {c op}, next ops c = some op →
    (l.operator op.associativity).Yields c op.combine (op.after c)
  miss : ∀ {c a}, (∀ op, next ops c = some op → op.associativity ≠ a) → (l.operator a).Passes c

/-- The next operator is read by the parser of its associativity. -/
theorem Spells.yields (h : Spells l ops) {a : Associativity} (hn : next ops c = some op)
    (ha : op.associativity = a) : (l.operator a).Yields c op.combine (op.after c) := by
  rw [← ha]
  exact h.hit hn

/-- The parsers of other associativities pass over the next operator. -/
theorem Spells.miss_of_ne (h : Spells l ops) {a : Associativity} (hn : next ops c = some op)
    (hne : op.associativity ≠ a) : (l.operator a).Passes c := by
  refine h.miss fun found hf => ?_
  rw [hn] at hf
  cases hf
  exact hne

/-- Where no operator is next, all of them are passed over. -/
theorem Spells.miss_of_none (h : Spells l ops) {a : Associativity} (hn : next ops c = none) :
    (l.operator a).Passes c := by
  refine h.miss fun found hf => ?_
  rw [hn] at hf
  cases hf

/-- Where an operator of some associativity is read, it is the next operator of the level. -/
theorem Spells.operator_cases (h : Spells l ops) {a : Associativity} {combine : α → α → α}
    (ho : (l.operator a).Yields c combine stop) :
    ∃ op, next ops c = some op ∧ op.associativity = a ∧ op.combine = combine ∧
      op.after c = stop := by
  cases hn : next ops c with
  | none => exact absurd (h.miss_of_none hn) ho.not_passes
  | some op =>
    by_cases hop : op.associativity = a
    · obtain ⟨hcombine, hstop⟩ := (h.yields hn hop).unique ho
      exact ⟨op, rfl, hop, hcombine, hstop⟩
    · exact absurd (h.miss_of_ne hn hop) ho.not_passes

/-! ## Looking ahead -/

theorem sees_of_yields {a : Associativity} {combine : α → α → α}
    (h : (l.operator a).Yields c combine stop) : l.sees a c = some true := by
  obtain ⟨progress, h⟩ := h
  rw [Level.sees, h]
  rfl

theorem sees_of_passes {a : Associativity} (h : (l.operator a).Passes c) :
    l.sees a c = some false := by
  obtain ⟨problems, stop, h⟩ := h
  rw [Level.sees, h]
  rfl

theorem Spells.firstSeen_none (h : Spells l ops) (as : List Associativity)
    (hn : next ops c = none) : l.firstSeen as c = some none := by
  induction as with
  | nil => rfl
  | cons a others ih => rw [Level.firstSeen, sees_of_passes (h.miss_of_none hn), ih]

theorem Spells.firstSeen_some (h : Spells l ops) {as : List Associativity}
    (hn : next ops c = some op) (hmem : op.associativity ∈ as) :
    l.firstSeen as c = some (some op.associativity) := by
  induction as with
  | nil => cases hmem
  | cons a others ih =>
    rw [Level.firstSeen]
    by_cases ha : op.associativity = a
    · rw [← ha, sees_of_yields (h.hit hn)]
    · rw [sees_of_passes (h.miss_of_ne hn ha)]
      exact ih ((List.mem_cons.mp hmem).resolve_left ha)

/-! ## Ending a chain -/

/-- What a level reports where an operator cannot be grouped. -/
abbrev clash (c : Cursor) (op : Connective α) : Verdict α :=
  .refused [c.deadEnd op.associativity.ambiguous] c

theorem Spells.close_of_none (h : Spells l ops) (refused : List Associativity) (value : α)
    (hn : next ops c = none) : (l.close refused value).Yields c value c :=
  ⟨false, by rw [Level.close, h.firstSeen_none refused hn]; rfl⟩

/-- A chain is refused where an operator is next that cannot follow. -/
theorem Spells.close_of_mem (h : Spells l ops) {refused : List Associativity}
    (hn : next ops c = some op) (hmem : op.associativity ∈ refused) :
    (l.close refused value).Gives c (clash c op) := by
  show l.close refused value c = _
  rw [Level.close, h.firstSeen_some hn hmem]

/-- A chain ends with its value only where no operator of a refused associativity starts. -/
theorem Spells.close_cases (h : Spells l ops) {refused : List Associativity}
    (hc : (l.close refused lhs).Yields c value stop) :
    lhs = value ∧ c = stop ∧ ∀ op, next ops c = some op → op.associativity ∉ refused := by
  cases hn : next ops c with
  | none =>
    obtain ⟨rfl, rfl⟩ := hc.unique (h.close_of_none refused lhs hn)
    exact ⟨rfl, rfl, fun op hop => by cases hop⟩
  | some op =>
    by_cases hmem : op.associativity ∈ refused
    · exact absurd (h.close_of_mem hn hmem) hc.not_refused
    · obtain ⟨progress, hc⟩ := hc
      rw [Level.close] at hc
      split at hc
      · cases hc
      · cases hc
        refine ⟨rfl, rfl, fun found hf => ?_⟩
        cases hf
        exact hmem
      · cases hc

/-! ## Chains to the left -/

theorem mem_right_non_of_ne_left {a : Associativity} (h : a ≠ .left) :
    a ∈ [Associativity.right, .non] := by
  cases a <;> simp_all

theorem Spells.chainLeft_end (h : Spells l ops) (hn : next ops c = none) :
    Parser.Yields (l.chainLeft lhs) c lhs c := by
  obtain ⟨problems, stop, hp⟩ := h.miss_of_none (a := .left) hn
  obtain ⟨progress, hc⟩ := h.close_of_none [.right, .non] lhs hn
  exact ⟨progress, by rw [Level.chainLeft, hp]; exact hc⟩

/-- A chain to the left is refused at an operator that does not group to the left. -/
theorem Spells.chainLeft_clash (h : Spells l ops) (hn : next ops c = some op)
    (hop : op.associativity ≠ .left) : Parser.Gives (l.chainLeft lhs) c (clash c op) := by
  obtain ⟨problems, stop, hp⟩ := h.miss_of_ne hn hop
  show l.chainLeft lhs c = _
  rw [Level.chainLeft, hp]
  exact h.close_of_mem hn (mem_right_non_of_ne_left hop)

theorem Spells.chainLeft_eq (h : Spells l ops) (lhs : α) (hn : next ops c = some op)
    (hop : op.associativity = .left) :
    ∃ progress, l.chainLeft lhs c = ((l.term.bind fun rhs next =>
      if next.rest.length < c.rest.length then l.chainLeft (op.combine lhs rhs) next
      else none) (op.after c)).map (Reply.onStep (Step.after progress)) := by
  obtain ⟨progress, ho⟩ := h.yields hn hop
  exact ⟨progress, by rw [Level.chainLeft, ho]⟩

/-- One turn: the operand joins what is to its left, and the chain goes on behind it. -/
theorem Spells.chainLeft_step (h : Spells l ops) (hn : next ops c = some op)
    (hop : op.associativity = .left) (ht : l.term.Yields (op.after c) x mid)
    (hlt : mid.rest.length < c.rest.length)
    (hrec : Parser.Gives (l.chainLeft (op.combine lhs x)) mid v) :
    Parser.Gives (l.chainLeft lhs) c v := by
  obtain ⟨progress, heq⟩ := h.chainLeft_eq lhs hn hop
  refine Parser.gives_of_after heq (Parser.gives_bind ht ?_)
  exact hrec.of_eq (if_pos hlt)

theorem Spells.chainLeft_refused (h : Spells l ops) (hn : next ops c = some op)
    (hop : op.associativity = .left) (ht : l.term.Gives (op.after c) (.refused problems stop)) :
    Parser.Gives (l.chainLeft lhs) c (.refused problems stop) := by
  obtain ⟨progress, heq⟩ := h.chainLeft_eq lhs hn hop
  exact Parser.gives_of_after heq (Parser.refused_bind ht)

/-- A chain to the left that succeeds has ended, or has made a turn. -/
theorem Spells.chainLeft_cases (h : Spells l ops)
    (hc : Parser.Yields (l.chainLeft lhs) c value stop) :
    (next ops c = none ∧ lhs = value ∧ c = stop) ∨
      ∃ op x mid, next ops c = some op ∧ op.associativity = .left ∧
        l.term.Yields (op.after c) x mid ∧ mid.rest.length < c.rest.length ∧
        Parser.Yields (l.chainLeft (op.combine lhs x)) mid value stop := by
  cases hn : next ops c with
  | none =>
    obtain ⟨rfl, rfl⟩ := hc.unique (h.chainLeft_end hn)
    exact Or.inl ⟨rfl, rfl, rfl⟩
  | some op =>
    by_cases hop : op.associativity = .left
    · obtain ⟨progress, heq⟩ := h.chainLeft_eq lhs hn hop
      obtain ⟨x, mid, ht, hgo⟩ := Parser.yields_bind_iff.mp (Parser.yields_of_after heq hc)
      obtain ⟨progress', hgo⟩ := hgo
      dsimp only at hgo
      split at hgo
      · next hlt => exact Or.inr ⟨op, x, mid, rfl, hop, ht, hlt, ⟨_, hgo⟩⟩
      · cases hgo
    · exact absurd (h.chainLeft_clash hn hop) hc.not_refused

/-! ## Chains to the right -/

theorem mem_left_non_of_ne_right {a : Associativity} (h : a ≠ .right) :
    a ∈ [Associativity.left, .non] := by
  cases a <;> simp_all

theorem Spells.rightTail_end (h : Spells l ops) (start : Cursor) (x : α)
    (hn : next ops c = none) : (l.rightTail start x).Yields c x c := by
  obtain ⟨progress, hc⟩ := h.close_of_none [.left, .non] x hn
  exact ⟨progress, by rw [Level.rightTail, sees_of_passes (h.miss_of_none hn)]; exact hc⟩

/-- A chain to the right is refused at an operator that does not group to the right. -/
theorem Spells.rightTail_clash (h : Spells l ops) (start : Cursor) (x : α)
    (hn : next ops c = some op) (hop : op.associativity ≠ .right) :
    (l.rightTail start x).Gives c (clash c op) := by
  show l.rightTail start x c = _
  rw [Level.rightTail, sees_of_passes (h.miss_of_ne hn hop)]
  exact h.close_of_mem hn (mem_left_non_of_ne_right hop)

theorem Spells.rightTail_eq (h : Spells l ops) {start : Cursor} (x : α)
    (hn : next ops c = some op) (hop : op.associativity = .right) :
    l.rightTail start x c
      = if c.rest.length < start.rest.length then l.chainRight x c else none := by
  rw [Level.rightTail, sees_of_yields (h.yields hn hop)]

/-- An operand of a chain to the right may be the left one of the next operator. -/
theorem Spells.rightTail_step (h : Spells l ops) {start : Cursor} (hn : next ops c = some op)
    (hop : op.associativity = .right) (hlt : c.rest.length < start.rest.length)
    (hrec : Parser.Gives (l.chainRight x) c v) : (l.rightTail start x).Gives c v := by
  refine hrec.of_eq ?_
  rw [h.rightTail_eq x hn hop, if_pos hlt]

/-- An operand of a chain to the right is the last, or the chain goes on behind it. -/
theorem Spells.rightTail_cases (h : Spells l ops) {start : Cursor}
    (ht : (l.rightTail start x).Yields c value stop) :
    (next ops c = none ∧ x = value ∧ c = stop) ∨
      ∃ op, next ops c = some op ∧ op.associativity = .right ∧
        c.rest.length < start.rest.length ∧ Parser.Yields (l.chainRight x) c value stop := by
  cases hn : next ops c with
  | none =>
    obtain ⟨rfl, rfl⟩ := ht.unique (h.rightTail_end start x hn)
    exact Or.inl ⟨rfl, rfl, rfl⟩
  | some op =>
    by_cases hop : op.associativity = .right
    · obtain ⟨progress, ht⟩ := ht
      rw [h.rightTail_eq x hn hop] at ht
      split at ht
      · next hlt => exact Or.inr ⟨op, rfl, hop, hlt, ⟨_, ht⟩⟩
      · cases ht
    · exact absurd (h.rightTail_clash start x hn hop) ht.not_refused

/-- One turn: what the rest of the chain gives is the right operand. -/
theorem Spells.chainRight_step (h : Spells l ops) (lhs : α) (hn : next ops c = some op)
    (hop : op.associativity = .right) (ht : l.term.Yields (op.after c) x mid)
    (hrec : (l.rightTail c x).Gives mid v) :
    Parser.Gives (l.chainRight lhs) c (v.map (op.combine lhs)) := by
  refine Parser.Gives.of_eq ?_ (l.chainRight_eq lhs c)
  exact Parser.gives_bind (h.yields hn hop) (Parser.gives_bind ht (Parser.gives_map hrec))

theorem Spells.chainRight_refused (h : Spells l ops) (lhs : α) (hn : next ops c = some op)
    (hop : op.associativity = .right) (ht : l.term.Gives (op.after c) (.refused problems stop)) :
    Parser.Gives (l.chainRight lhs) c (.refused problems stop) := by
  refine Parser.Gives.of_eq ?_ (l.chainRight_eq lhs c)
  exact Parser.gives_bind (h.yields hn hop) (Parser.refused_bind ht)

/-- A chain to the right that succeeds has made a turn. -/
theorem Spells.chainRight_cases (h : Spells l ops)
    (hc : Parser.Yields (l.chainRight lhs) c value stop) :
    ∃ op x mid w, next ops c = some op ∧ op.associativity = .right ∧
      l.term.Yields (op.after c) x mid ∧ (l.rightTail c x).Yields mid w stop ∧
      op.combine lhs w = value := by
  obtain ⟨progress, hc⟩ := hc
  rw [Level.chainRight_eq] at hc
  obtain ⟨combine, behind, ho, hb⟩ := Parser.yields_bind_iff.mp ⟨progress, hc⟩
  obtain ⟨x, mid, ht, hm⟩ := Parser.yields_bind_iff.mp hb
  obtain ⟨w, hw, rfl⟩ := Parser.yields_map_iff.mp hm
  obtain ⟨op, hn, hop, rfl, rfl⟩ := h.operator_cases ho
  exact ⟨op, x, mid, w, hn, hop, ht, hw, rfl⟩

/-! ## Operators that do not chain -/

theorem mem_all (a : Associativity) : a ∈ [Associativity.right, .left, .non] := by
  cases a <;> simp

theorem Spells.single_end (h : Spells l ops) (lhs : α) (hn : next ops c = some op)
    (hop : op.associativity = .non) (ht : l.term.Yields (op.after c) x mid)
    (hm : next ops mid = none) : (l.single lhs).Yields c (op.combine lhs x) mid := by
  exact Parser.gives_bind (h.yields hn hop) (Parser.gives_bind ht (h.close_of_none _ _ hm))

/-- Behind an operator that does not chain, any operator of the level is refused. -/
theorem Spells.single_clash (h : Spells l ops) (lhs : α) (hn : next ops c = some op)
    (hop : op.associativity = .non) (ht : l.term.Yields (op.after c) x mid)
    (hm : next ops mid = some other) : (l.single lhs).Gives c (clash mid other) := by
  exact Parser.gives_bind (h.yields hn hop)
    (Parser.gives_bind ht (h.close_of_mem hm (mem_all _)))

theorem Spells.single_refused (h : Spells l ops) (lhs : α) (hn : next ops c = some op)
    (hop : op.associativity = .non) (ht : l.term.Gives (op.after c) (.refused problems stop)) :
    (l.single lhs).Gives c (.refused problems stop) := by
  exact Parser.gives_bind (h.yields hn hop) (Parser.refused_bind ht)

/-- Where an operator that does not chain succeeds, nothing of the level follows. -/
theorem Spells.single_cases (h : Spells l ops) (hs : (l.single lhs).Yields c value stop) :
    ∃ op x, next ops c = some op ∧ op.associativity = .non ∧
      l.term.Yields (op.after c) x stop ∧ next ops stop = none ∧ op.combine lhs x = value := by
  obtain ⟨combine, behind, ho, hb⟩ := Parser.yields_bind_iff.mp hs
  obtain ⟨x, mid, ht, hc⟩ := Parser.yields_bind_iff.mp hb
  obtain ⟨rfl, rfl, hnot⟩ := h.close_cases hc
  obtain ⟨op, hn, hop, rfl, rfl⟩ := h.operator_cases ho
  refine ⟨op, x, hn, hop, ht, ?_, rfl⟩
  cases hm : next ops mid with
  | none => rfl
  | some other => exact absurd (mem_all _) (hnot other hm)

/-! ## The whole level -/

/-- The chain that an operator behind the first operand leads to. -/
def chain (l : Level α) (first : α) : Associativity → Parser α
  | .right => l.chainRight first
  | .left => l.chainLeft first
  | .non => l.single first

/-- A level is one operand if no operator of it is next. -/
theorem Spells.parse_end (h : Spells l ops) (ht : l.term.Yields c x mid)
    (hn : next ops mid = none) : l.parse.Yields c x mid := by
  refine Parser.gives_bind ht ⟨false, ?_⟩
  dsimp only
  rw [h.firstSeen_none _ hn]
  rfl

/-- The operator behind the first operand tells which chain is read. -/
theorem Spells.parse_chain (h : Spells l ops) (ht : l.term.Yields c x mid)
    (hn : next ops mid = some op) (hc : (chain l x op.associativity).Gives mid v) :
    l.parse.Gives c v := by
  refine Parser.gives_bind ht (hc.of_eq ?_)
  rw [h.firstSeen_some hn (mem_all _)]
  cases op.associativity <;> rfl

theorem parse_refused (ht : l.term.Gives c (.refused problems stop)) :
    l.parse.Gives c (.refused problems stop) :=
  Parser.refused_bind ht

/-- A level that succeeds is one operand, or a chain that starts with one. -/
theorem Spells.parse_cases (h : Spells l ops) (hp : l.parse.Yields c value stop) :
    ∃ x mid, l.term.Yields c x mid ∧
      ((next ops mid = none ∧ x = value ∧ mid = stop) ∨
        ∃ op, next ops mid = some op ∧ (chain l x op.associativity).Yields mid value stop) := by
  obtain ⟨x, mid, ht, hc⟩ := Parser.yields_bind_iff.mp hp
  refine ⟨x, mid, ht, ?_⟩
  obtain ⟨progress, hc⟩ := hc
  dsimp only at hc
  cases hn : next ops mid with
  | none =>
    rw [h.firstSeen_none _ hn] at hc
    cases hc
    exact Or.inl ⟨rfl, rfl, rfl⟩
  | some op =>
    rw [h.firstSeen_some hn (mem_all _)] at hc
    refine Or.inr ⟨op, rfl, progress, ?_⟩
    cases ha : op.associativity with
    | non => rw [ha] at hc; exact hc
    | left => rw [ha] at hc; exact hc
    | right => rw [ha] at hc; exact hc

end TypedLambda.Precedence
