import Mathlib.Data.List.Forall2
import TypedLambda.Parser.Named
import TypedLambda.Proofs.Source.Places

/-!
# Runs do not depend on what stands before them

A parser looks at the rest of the text and never at its position, which it only moves on and puts
into reports. So two runs of one rule that start with the same rest take the same course, and their
positions stay in whatever relation they started in, as long as reading on keeps it
(`Cursor.Pairing`). This is shown for all rules at once (`Rule.paired_denote`).

Behind a text `u`, the positions of a text `w` are moved by `u`: the offset by its bytes and the row
by its line feeds, while the column moves in the first row only, by the characters behind the last
line feed of `u` (`Position.behind`). Reading on keeps this relation, one character at a time
(`Position.behind_next`).

**Main statement:** `Grammar.runs_are_position_independent`.
-/

namespace TypedLambda

/-! ## Paired replies -/

/-- Cursors are paired with cursors that have the same rest, and stay paired as both move on. -/
structure Cursor.Pairing (R : Cursor → Cursor → Prop) : Prop where
  rest : ∀ {c d : Cursor}, R c d → c.rest = d.rest
  advanceBy : ∀ {c d : Cursor}, R c d → ∀ count, R (c.advanceBy count) (d.advanceBy count)

/-- The same problem at paired cursors. -/
def DeadEnd.Paired (R : Cursor → Cursor → Prop) (dead dead' : DeadEnd) : Prop :=
  ∃ c d problem, R c d ∧ dead = c.deadEnd problem ∧ dead' = d.deadEnd problem

/-- The same step, up to the places of the dead ends. -/
inductive Step.Paired {α : Type} (R : Cursor → Cursor → Prop) : Step α → Step α → Prop
  | good (progress : Bool) (value : α) : Paired R (.good progress value) (.good progress value)
  | bad (progress : Bool) {problems problems' : List DeadEnd}
    (h : List.Forall₂ (DeadEnd.Paired R) problems problems') :
    Paired R (.bad progress problems) (.bad progress problems')

/-- The same step, up to the places of the dead ends, at paired cursors. -/
structure Reply.Paired {α : Type} (R : Cursor → Cursor → Prop) (r s : Reply α) : Prop where
  step : r.step.Paired R s.step
  cursor : R r.cursor s.cursor

/-- From paired cursors, both runs end with paired replies or neither ends. -/
def Parser.Paired {α : Type} (R : Cursor → Cursor → Prop) (p q : Parser α) : Prop :=
  ∀ ⦃c d : Cursor⦄, R c d → Option.Rel (Reply.Paired R) (p c) (q d)

namespace Step.Paired

variable {α β : Type} {R : Cursor → Cursor → Prop} {s s' : Step α}

theorem map (h : s.Paired R s') (f : α → β) : (s.map f).Paired R (s'.map f) := by
  cases h with
  | good progress value => exact .good progress (f value)
  | bad progress h => exact .bad progress h

theorem after (h : s.Paired R s') (earlier : Bool) :
    (s.after earlier).Paired R (s'.after earlier) := by
  cases h with
  | good progress value => exact .good _ value
  | bad progress h => exact .bad _ h

theorem withoutProgress (h : s.Paired R s') : s.withoutProgress.Paired R s'.withoutProgress := by
  cases h with
  | good progress value => exact .good false value
  | bad progress h => exact .bad false h

end Step.Paired

theorem Cursor.paired_deadEnd {R : Cursor → Cursor → Prop} {c d : Cursor} (h : R c d)
    (problem : Problem) :
    List.Forall₂ (DeadEnd.Paired R) [c.deadEnd problem] [d.deadEnd problem] :=
  .cons ⟨c, d, problem, h, rfl, rfl⟩ .nil

/-- Replies stay paired when their steps are changed alike. -/
theorem Reply.paired_onStep {α β : Type} {R : Cursor → Cursor → Prop} {f : Step α → Step β}
    (hf : ∀ {s s' : Step α}, s.Paired R s' → (f s).Paired R (f s')) {x y : Option (Reply α)}
    (h : Option.Rel (Reply.Paired R) x y) :
    Option.Rel (Reply.Paired R) (x.map (Reply.onStep f)) (y.map (Reply.onStep f)) := by
  cases h with
  | none => exact .none
  | some h => exact .some ⟨hf h.step, h.cursor⟩

/-! ## Parsers -/

namespace Parser

variable {α β : Type} {R : Cursor → Cursor → Prop} {p p' q q' : Parser α} {c d : Cursor}

/-- What the replies from paired cursors can be. -/
theorem Paired.cases (hp : Paired R p q) (hcd : R c d) :
    (p c = none ∧ q d = none) ∨
    (∃ progress value stop stop', R stop stop' ∧
      p c = some ⟨.good progress value, stop⟩ ∧ q d = some ⟨.good progress value, stop'⟩) ∨
    ∃ progress problems problems' stop stop', R stop stop' ∧
      List.Forall₂ (DeadEnd.Paired R) problems problems' ∧
      p c = some ⟨.bad progress problems, stop⟩ ∧ q d = some ⟨.bad progress problems', stop'⟩ := by
  have hreplies := hp hcd
  generalize p c = x, q d = y at hreplies ⊢
  cases hreplies with
  | none => exact Or.inl ⟨rfl, rfl⟩
  | @some r s h =>
    obtain ⟨step, stop⟩ := r
    obtain ⟨step', stop'⟩ := s
    obtain ⟨hstep, hstop⟩ := h
    cases hstep with
    | good progress value =>
      exact Or.inr (Or.inl ⟨progress, value, stop, stop', hstop, rfl, rfl⟩)
    | bad progress hproblems =>
      exact Or.inr (Or.inr ⟨progress, _, _, stop, stop', hstop, hproblems, rfl, rfl⟩)

theorem paired_succeed (value : α) : Paired R (succeed value) (succeed value) :=
  fun _ _ hcd => .some ⟨.good false value, hcd⟩

theorem paired_fail (problem : Problem) : Paired R (fail problem : Parser α) (fail problem) :=
  fun _ _ hcd => .some ⟨.bad false (Cursor.paired_deadEnd hcd problem), hcd⟩

theorem paired_nothing : Paired R (nothing : Parser α) nothing :=
  fun _ _ hcd => .some ⟨.bad false .nil, hcd⟩

theorem paired_never : Paired R (never : Parser α) never := fun _ _ _ => .none

theorem Paired.bind (hp : Paired R p q) {f g : α → Parser β}
    (hf : ∀ value, Paired R (f value) (g value)) : Paired R (p.bind f) (q.bind g) := by
  intro c d hcd
  unfold Parser.bind
  rcases hp.cases hcd with ⟨h, h'⟩ | ⟨progress, value, stop, stop', hstop, h, h'⟩ |
    ⟨progress, problems, problems', stop, stop', hstop, hproblems, h, h'⟩
  · rw [h, h']
    exact .none
  · rw [h, h']
    exact Reply.paired_onStep (·.after progress) (hf value hstop)
  · rw [h, h']
    exact .some ⟨.bad progress hproblems, hstop⟩

theorem Paired.map (hp : Paired R p q) (f : α → β) : Paired R (p.map f) (q.map f) :=
  fun _ _ hcd => Reply.paired_onStep (·.map f) (hp hcd)

theorem Paired.backtrackable (hp : Paired R p q) : Paired R p.backtrackable q.backtrackable :=
  fun _ _ hcd => Reply.paired_onStep (·.withoutProgress) (hp hcd)

/-- Paired alternatives are passed over together, so choices are paired. -/
theorem Paired.orElse (hp : Paired R p p') (hq : Paired R q q') :
    Paired R (p.orElse q) (p'.orElse q') := by
  intro c d hcd
  unfold Parser.orElse
  rcases hp.cases hcd with ⟨h, h'⟩ | ⟨progress, value, stop, stop', hstop, h, h'⟩ |
    ⟨progress, problems, problems', stop, stop', hstop, hproblems, h, h'⟩
  · rw [h, h']
    exact .none
  · rw [h, h']
    exact .some ⟨.good progress value, hstop⟩
  rw [h, h']
  cases progress with
  | true => exact .some ⟨.bad true hproblems, hstop⟩
  | false =>
    dsimp only
    rcases hq.cases hcd with ⟨h, h'⟩ | ⟨progress, value, stop, stop', hstop, h, h'⟩ |
      ⟨progress, more, more', stop, stop', hstop, hmore, h, h'⟩
    · rw [h, h']
      exact .none
    · rw [h, h']
      exact .some ⟨.good progress value, hstop⟩
    · rw [h, h']
      cases progress with
      | true => exact .some ⟨.bad true hmore, hstop⟩
      | false => exact .some ⟨.bad false (List.rel_append hproblems hmore), hcd⟩

variable (hR : Cursor.Pairing R)
include hR

/-- By induction on what is left, which is the same on both sides. -/
theorem Paired.many (hp : Paired R p q) : Paired R p.many q.many := by
  intro c
  induction c using Cursor.shorterInduction with
  | step c ih =>
    intro d hcd
    rw [Parser.many, Parser.many]
    rcases hp.cases hcd with ⟨h, h'⟩ | ⟨progress, value, next, next', hnext, h, h'⟩ |
      ⟨progress, problems, problems', stop, stop', hstop, hproblems, h, h'⟩
    · rw [h, h']
      exact .none
    · rw [h, h']
      dsimp only
      rw [← hR.rest hcd, ← hR.rest hnext]
      split
      · next hlt =>
        exact Reply.paired_onStep (fun hs => (hs.map (value :: ·)).after progress)
          (ih next hlt hnext)
      · exact .none
    · rw [h, h']
      cases progress with
      | true => exact .some ⟨.bad true hproblems, hstop⟩
      | false => exact .some ⟨.good false [], hcd⟩

/-! ## Tokens -/

/-- A token looks at the rest of the text only. -/
theorem paired_token (text : String) (problem : Problem) (runsOn : Char → Bool) :
    Paired R (token text problem runsOn) (token text problem runsOn) := by
  intro c d hcd
  unfold token
  rw [← hR.rest hcd]
  split
  · exact .some ⟨.good _ (), hR.advanceBy hcd text.length⟩
  · exact paired_fail problem hcd

theorem paired_chompWhile (inClass : Char → Bool) :
    Paired R (chompWhile inClass) (chompWhile inClass) := by
  intro c d hcd
  unfold chompWhile
  rw [← hR.rest hcd]
  exact .some ⟨.good _ (), hR.advanceBy hcd _⟩

theorem paired_endOfInput : Paired R endOfInput endOfInput := by
  intro c d hcd
  unfold endOfInput Cursor.hasNext
  rw [← hR.rest hcd]
  split
  · exact paired_fail _ hcd
  · exact paired_succeed () hcd

theorem paired_name (rules : NameRules) : Paired R (name rules) (name rules) := by
  intro c d hcd
  unfold name
  rw [← hR.rest hcd]
  split
  · dsimp only
    split
    · exact .some ⟨.good true _, hR.advanceBy hcd _⟩
    · exact paired_fail _ hcd
  · exact paired_fail _ hcd

theorem paired_int : Paired R int int := by
  intro c d hcd
  unfold int
  rw [← hR.rest hcd]
  dsimp only
  split
  · exact paired_fail _ hcd
  · split
    · exact .some ⟨.good true _, hR.advanceBy hcd _⟩
    · exact .some ⟨.bad true (Cursor.paired_deadEnd hcd _), hcd⟩

end Parser

/-! ## Levels -/

namespace Level

variable {α : Type} {R : Cursor → Cursor → Prop} {l : Level α} {c d : Cursor}

section

variable (ho : ∀ a, Parser.Paired R (l.operator a) (l.operator a))
include ho

theorem sees_eq_of_paired (hcd : R c d) (a : Associativity) : l.sees a c = l.sees a d := by
  unfold sees
  rcases (ho a).cases hcd with ⟨h, h'⟩ | ⟨_, _, _, _, _, h, h'⟩ | ⟨_, _, _, _, _, _, _, h, h'⟩ <;>
    rw [h, h'] <;> rfl

theorem firstSeen_eq_of_paired (hcd : R c d) (as : List Associativity) :
    l.firstSeen as c = l.firstSeen as d := by
  induction as with
  | nil => rfl
  | cons a others ih => rw [firstSeen, firstSeen, sees_eq_of_paired ho hcd, ih]

theorem paired_close (refused : List Associativity) (value : α) :
    Parser.Paired R (l.close refused value) (l.close refused value) := by
  intro c d hcd
  unfold close
  rw [firstSeen_eq_of_paired ho hcd]
  split
  · exact .none
  · exact Parser.paired_succeed value hcd
  · next a _ => exact .some ⟨.bad true (Cursor.paired_deadEnd hcd a.ambiguous), hcd⟩

variable (ht : Parser.Paired R l.term l.term)
include ht

theorem paired_single (lhs : α) : Parser.Paired R (l.single lhs) (l.single lhs) :=
  (ho .non).bind fun _ => ht.bind fun _ => paired_close ho _ _

variable (hR : Cursor.Pairing R)
include hR

theorem paired_chainLeft (lhs : α) : Parser.Paired R (l.chainLeft lhs) (l.chainLeft lhs) := by
  intro c
  induction c using Cursor.shorterInduction generalizing lhs with
  | step c ih =>
    intro d hcd
    have htail : ∀ combine, Parser.Paired R (l.leftTail c combine lhs)
        (l.leftTail d combine lhs) := by
      intro combine
      refine ht.bind fun rhs next next' hnext => ?_
      rw [← hR.rest hcd, ← hR.rest hnext]
      split
      · next hlt => exact ih next hlt (combine lhs rhs) hnext
      · exact .none
    rw [chainLeft, chainLeft]
    rcases (ho .left).cases hcd with ⟨h, h'⟩ |
      ⟨progress, combine, behind, behind', hbehind, h, h'⟩ |
      ⟨progress, problems, problems', stop, stop', hstop, hproblems, h, h'⟩
    · rw [h, h']
      exact .none
    · rw [h, h']
      exact Reply.paired_onStep (·.after progress) (htail combine hbehind)
    · rw [h, h']
      cases progress with
      | true => exact .some ⟨.bad true hproblems, hstop⟩
      | false => exact paired_close ho _ _ hcd

theorem paired_chainRight (lhs : α) : Parser.Paired R (l.chainRight lhs) (l.chainRight lhs) := by
  intro c
  induction c using Cursor.shorterInduction generalizing lhs with
  | step c ih =>
    intro d hcd
    have htail : ∀ operand, Parser.Paired R (l.rightTail c operand) (l.rightTail d operand) := by
      intro operand next next' hnext
      unfold rightTail
      rw [← hR.rest hcd, ← hR.rest hnext, sees_eq_of_paired ho hnext]
      split
      · exact .none
      · split
        · next hlt => exact ih next hlt operand hnext
        · exact .none
      · exact paired_close ho _ _ hnext
    rw [chainRight_eq, chainRight_eq]
    have hchain := (ho .right).bind fun combine => ht.bind fun operand =>
      (htail operand).map (combine lhs)
    exact hchain hcd

/-- **A level pairs its replies if its operands and its operators do.** -/
theorem paired_parse : Parser.Paired R l.parse l.parse := by
  rw [parse_eq]
  refine ht.bind fun first c d hcd => ?_
  unfold follow
  rw [firstSeen_eq_of_paired ho hcd]
  split
  · exact .none
  · exact Parser.paired_succeed first hcd
  · exact paired_chainRight ho ht hR first hcd
  · exact paired_chainLeft ho ht hR first hcd
  · exact paired_single ho ht first hcd

end

end Level

/-! ## Rules and grammars -/

/-- **A rule replies alike from paired cursors if the names in it do.** -/
theorem Rule.paired_denote {σ : Type → Type} {call : {α : Type} → σ α → Parser α}
    {R : Cursor → Cursor → Prop} (hR : Cursor.Pairing R)
    (h : ∀ {α : Type} (x : σ α), Parser.Paired R (call x) (call x)) {α : Type} (r : Rule σ α) :
    Parser.Paired R (r.denote call) (r.denote call) := by
  induction r with
  | succeed value => exact Parser.paired_succeed value
  | problem message => exact Parser.paired_fail _
  | bind r f ihr ihf => exact ihr.bind ihf
  | nothing => exact Parser.paired_nothing
  | orElse r s ihr ihs => exact ihr.orElse ihs
  | backtrackable r ih => exact ih.backtrackable
  | symbol text => exact Parser.paired_token hR _ _ _
  | keyword text => exact Parser.paired_token hR _ _ _
  | chompWhile inClass => exact Parser.paired_chompWhile hR inClass
  | endOfInput => exact Parser.paired_endOfInput hR
  | name rules => exact Parser.paired_name hR rules
  | int => exact Parser.paired_int hR
  | many r ih => exact ih.many hR
  | level term operator iht iho => exact Level.paired_parse iho iht hR
  | ref x => exact h x

/-- Every name is paired with itself, by induction on the depth. -/
theorem Grammar.paired_call {σ : Type → Type} {R : Cursor → Cursor → Prop}
    (hR : Cursor.Pairing R) (g : Grammar σ) (depth : Nat) {α : Type} (x : σ α) :
    Parser.Paired R (g.call depth x) (g.call depth x) := by
  induction depth generalizing α with
  | zero => exact Parser.paired_never
  | succ depth ih => exact Rule.paired_denote hR ih (g.rule x)

/-! ## Behind a text -/

/-- A column of a text when another text stands before it. -/
def columnBehind (u : String) (row column : Nat) : Nat :=
  -- the first row goes on where the text before ends, the others have a line feed before them
  if row = 1 then column - 1 + (Position.start.after u.toList).column else column

/-- A position of a text when another text stands before it. -/
def Position.behind (u : String) (p : Position) : Position where
  offset := p.offset + u.utf8ByteSize
  row := p.row + u.toList.count '\n'
  column := columnBehind u p.row p.column

/-- A dead end of a text when another text stands before it. -/
def DeadEnd.behind (u : String) (dead : DeadEnd) : DeadEnd where
  row := dead.row + u.toList.count '\n'
  column := columnBehind u dead.row dead.column
  problem := dead.problem

/-- A cursor in a text when another text stands before it. -/
def Cursor.behind (u : String) (c : Cursor) : Cursor := ⟨c.position.behind u, c.rest⟩

/-- A step in a text when another text stands before it. -/
def Step.behind {α : Type} (u : String) : Step α → Step α
  | good progress value => good progress value
  | bad progress problems => bad progress (problems.map (DeadEnd.behind u))

/-- A reply in a text when another text stands before it. -/
def Reply.behind {α : Type} (u : String) (r : Reply α) : Reply α :=
  ⟨r.step.behind u, r.cursor.behind u⟩

/-- Text that is put before moves no column but those of the first row. -/
theorem columnBehind_later {u : String} {row : Nat} (h : row ≠ 1) (column : Nat) :
    columnBehind u row column = column := if_neg h

/-- Text before moves neighbouring columns alike. -/
theorem columnBehind_succ {u : String} {row column : Nat} (h : 1 ≤ column) :
    columnBehind u row (column + 1) = columnBehind u row column + 1 := by
  unfold columnBehind
  split
  · omega
  · rfl

namespace Position

variable {p : Position}

/-- Rows and columns are counted from one. -/
structure Counted (p : Position) : Prop where
  row : 1 ≤ p.row
  column : 1 ≤ p.column

theorem counted_start : start.Counted := ⟨Nat.le_refl 1, Nat.le_refl 1⟩

theorem Counted.next (h : p.Counted) (a : Char) : (p.next a).Counted := by
  unfold Position.next
  split
  · exact ⟨Nat.le_add_left 1 _, Nat.le_refl 1⟩
  · exact ⟨h.row, Nat.le_add_left 1 _⟩

/-- Rows and columns are counted from one, however far a text is read. -/
theorem Counted.after (h : p.Counted) (text : List Char) : (p.after text).Counted := by
  induction text generalizing p with
  | nil => exact h
  | cons a text ih => exact ih (h.next a)

/-- The place before the first character is the place behind the text before. -/
theorem behind_start (u : String) : start.behind u = start.after u.toList := by
  obtain ⟨hrow, -⟩ := row_column_after u.toList
  have hoffset : (start.after u.toList).offset = 0 + u.utf8ByteSize := by
    rw [offset_after, String.ofList_toList]
    rfl
  have hcolumn : columnBehind u 1 1 = (start.after u.toList).column := by
    simp [columnBehind]
  show Position.mk (0 + u.utf8ByteSize) (1 + u.toList.count '\n') (columnBehind u 1 1) = _
  rw [← hoffset, ← hrow, hcolumn]

/-- **Reading a character on both sides leaves the second place behind the text.** -/
theorem behind_next (h : p.Counted) (u : String) (a : Char) :
    (p.next a).behind u = (p.behind u).next a := by
  have hoffset := Nat.add_right_comm p.offset a.utf8Size u.utf8ByteSize
  by_cases ha : a = '\n'
  · -- a new row is never the first, so its columns do not move
    have hrow := Nat.add_right_comm p.row 1 (u.toList.count '\n')
    have hcolumn : columnBehind u (p.row + 1) 1 = 1 :=
      columnBehind_later (Nat.ne_of_gt (Nat.lt_add_one_of_le h.row)) 1
    simp only [next, behind, if_pos ha, hoffset, hrow, hcolumn]
  · simp only [next, behind, if_neg ha, hoffset, columnBehind_succ h.column]

/-- Reading on and putting a text before may be exchanged. -/
theorem behind_after (h : p.Counted) (u : String) (text : List Char) :
    (p.after text).behind u = (p.behind u).after text := by
  induction text generalizing p with
  | nil => rfl
  | cons a text ih => rw [after_cons, after_cons, ih (h.next a), behind_next h]

end Position

/-- The second cursor is the first one, when a text stands before. -/
structure Cursor.Behind (u : String) (c d : Cursor) : Prop where
  counted : c.position.Counted
  eq : d = c.behind u

namespace Cursor

/-- The start of a text is behind what stands before it. -/
theorem behind_start (u w : String) : (start w).Behind u ((start (u ++ w)).advanceBy u.length) := by
  refine ⟨Position.counted_start, ?_⟩
  have hrest : (start (u ++ w)).rest = u.toList ++ w.toList := String.toList_append
  unfold advanceBy
  rw [hrest, ← String.length_toList, List.take_left, List.drop_left]
  exact congrArg (Cursor.mk · w.toList) (Position.behind_start u).symm

/-- **Reading on keeps two cursors apart by the text before.** -/
theorem pairing_behind (u : String) : Pairing (Behind u) where
  rest h := by rw [h.eq]; rfl
  advanceBy {c d} h count := by
    refine ⟨h.counted.after _, ?_⟩
    rw [h.eq]
    exact congrArg (Cursor.mk · _) (Position.behind_after h.counted u _).symm

end Cursor

/-! ## Replies behind a text -/

theorem DeadEnd.Paired.behind_eq {u : String} {dead dead' : DeadEnd}
    (h : dead.Paired (Cursor.Behind u) dead') : dead.behind u = dead' := by
  obtain ⟨c, d, problem, hcd, rfl, rfl⟩ := h
  rw [hcd.eq]
  rfl

theorem Step.Paired.behind_eq {α : Type} {u : String} {s s' : Step α}
    (h : s.Paired (Cursor.Behind u) s') : s.behind u = s' := by
  cases h with
  | good progress value => rfl
  | @bad progress problems problems' h =>
    have hproblems : List.Forall₂ (· = ·) (problems.map (DeadEnd.behind u)) problems' :=
      List.forall₂_map_left_iff.mpr (h.imp fun _ _ => DeadEnd.Paired.behind_eq)
    rw [List.forall₂_eq_eq_eq] at hproblems
    exact congrArg (Step.bad progress) hproblems

/-- Paired runs have the same reply, moved behind the text before. -/
theorem Reply.map_behind_eq {α : Type} {u : String} {x y : Option (Reply α)}
    (h : Option.Rel (Reply.Paired (Cursor.Behind u)) x y) : x.map (Reply.behind u) = y := by
  cases h with
  | none => rfl
  | @some r s h =>
    have hreply : r.behind u = s := by
      rw [Reply.behind, h.step.behind_eq, ← h.cursor.eq]
    rw [Option.map_some, hreply]

namespace Grammar

variable {σ : Type → Type} {α : Type}

/--
**Runs do not depend on what stands before them.** A run of a rule over the second of two texts,
from behind the first, ends exactly if the run over the second text alone does. It ends with the
same step and the same rest, with the position and all dead ends moved by the first text.
-/
theorem runs_are_position_independent (g : Grammar σ) (depth : Nat) (r : Rule σ α)
    (u w : String) :
    g.denote depth r ((Cursor.start (u ++ w)).advanceBy u.length) =
      (g.denote depth r (.start w)).map (Reply.behind u) := by
  have hpaired : Parser.Paired (Cursor.Behind u) (g.denote depth r) (g.denote depth r) :=
    Rule.paired_denote (Cursor.pairing_behind u) (g.paired_call (Cursor.pairing_behind u) depth) r
  exact (Reply.map_behind_eq (hpaired (Cursor.behind_start u w))).symm

/-- In the first row of the second text columns move, here by the two letters before it. -/
example : ((Rule.symbol "(").bind fun _ => .symbol ")").denote
    ((Named.grammar (β := Unit) []).call 0) ((Cursor.start "é\nab(x").advanceBy 4) =
      some ⟨.bad true [⟨2, 4, .expectingSymbol ")"⟩], ⟨⟨6, 2, 4⟩, ['x']⟩⟩ := by
  decide

end Grammar

end TypedLambda
