import TypedLambda.Expr.Parse
import TypedLambda.Proofs.Parser.Unfolding

/-!
# Reading comes to an end

Whatever a run repeats, it repeats further on in the text. A phrase uses phrases only at greater
offsets than its own, a row of atoms starts each atom behind the one before, and a chain of operands
starts each turn behind the one before. So a bound above the length of the text is never used up.

That a phrase uses no phrase at its own offset or before is said by taking those away: without any
reply there (`Phrase.beyond`) the reply of the phrase is the same.
-/

namespace TypedLambda

/-! ## Gains along a run -/

/-- A reply of a parser that settles below every bound is at a greater offset. -/
theorem Parser.Settles.offset_lt {α : Type} {p : Parser α} {c next : Cursor} {value : α}
    (hs : p.Settles (c.rest.length + 1) 1) (hfwd : p.Forward) (h : p.Yields c value next) :
    c.position.offset < next.position.offset := by
  obtain ⟨progress, h⟩ := h
  obtain ⟨r, hr, -, hgood⟩ := hs c (Nat.lt_succ_self _)
  rw [h] at hr
  cases hr
  have hgain := hgood rfl
  obtain ⟨text, hspans⟩ := hfwd h
  refine hspans.offset_lt_iff.mpr ?_
  simp only at hgain ⊢
  omega

theorem Cursor.Onward.offset_le {c d : Cursor} (h : c.Onward d) :
    c.position.offset ≤ d.position.offset := by
  obtain ⟨text, h⟩ := h
  rw [h.position]
  exact Position.offset_le_after _ _

/-! ## Levels of a table -/

namespace Level

variable {α : Type}

/-- An operator and the operand behind it, from one place where a chain goes on to the next. -/
def Turn (l : Level α) (a : Associativity) (c next : Cursor) : Prop :=
  ∃ combine mid operand, (l.operator a).Yields c combine mid ∧ l.term.Yields mid operand next

/-- The levels that a table is read by. -/
def ofTable {σ : Type → Type} (call : {α : Type} → σ α → Parser α) (term : Rule σ α) :
    List (List (Operator σ α)) → List (Level α)
  | [] => []
  | operators :: tighter =>
    ⟨(Rule.table tighter term).denote call, fun a => (Rule.operatorsOf operators a).denote call⟩ ::
      ofTable call term tighter

/-- A chain goes on further in the text if its operators are not empty. -/
theorem Turn.offset_lt {l : Level α} {a : Associativity} {c next : Cursor} (h : l.Turn a c next)
    (ho : (l.operator a).Settles (c.rest.length + 1) 1) (hof : (l.operator a).Forward)
    (htf : l.term.Forward) : c.position.offset < next.position.offset := by
  obtain ⟨combine, mid, operand, hop, hterm⟩ := h
  have hmid := ho.offset_lt hof hop
  have hnext := (htf.yields hterm).offset_le
  omega

/-- Every turn of a level of a table moves on, since its operators read something. -/
theorem turn_offset_lt_of_mem {σ : Type → Type} {call : {α : Type} → σ α → Parser α}
    (hfwd : ∀ {α : Type} (x : σ α), (call x).Forward) {term : Rule σ α}
    {levels : List (List (Operator σ α))}
    (ho : ∀ level ∈ levels, ∀ operator ∈ level, ∀ bound,
      (operator.rule.denote call).Settles bound 1)
    {l : Level α} (hl : l ∈ ofTable call term levels) {a : Associativity} {c next : Cursor}
    (h : l.Turn a c next) : c.position.offset < next.position.offset := by
  induction levels with
  | nil => cases hl
  | cons level levels ih =>
    rcases List.mem_cons.mp hl with rfl | hl
    · refine h.offset_lt ?_ (Rule.forward_denote hfwd _) (Rule.forward_denote hfwd _)
      refine Rule.settles_oneOf fun r hr => ?_
      obtain ⟨operator, hmem, rfl⟩ := List.mem_map.mp hr
      exact ho level List.mem_cons_self operator (List.mem_filter.mp hmem).1 _
    · exact ih (fun level' hmem => ho level' (List.mem_cons_of_mem level hmem)) hl

end Level

namespace Phrase

variable {α : Type}

theorem settles_infixed {call : {α : Type} → Phrase α → Parser α} {text : String}
    (h : 1 ≤ text.length) (combine : α → α → α) (a : Associativity) (bound : Nat) :
    ((infixed text combine a).rule.denote call).Settles bound 1 :=
  Rule.settles_map _ (Rule.settles_sign h)

/-! ## Phrases inside phrases -/

/-- The phrases at offsets greater than that of a cursor; elsewhere there is no reply. -/
def beyond (c : Cursor) (call : {α : Type} → Phrase α → Parser α) {α : Type} (x : Phrase α) :
    Parser α :=
  fun d => if c.position.offset < d.position.offset then call x d else none

/-- The phrases where fewer characters are left than at a cursor. -/
def below (c : Cursor) (call : {α : Type} → Phrase α → Parser α) {α : Type} (x : Phrase α) :
    Parser α :=
  fun d => if d.rest.length < c.rest.length then call x d else none

/-- The rule of a name settles one character beyond what the names settle. -/
theorem settles_rule {bound : Nat} {call : {α : Type} → Phrase α → Parser α}
    (h : ∀ {α : Type} (x : Phrase α), Parser.Settles bound 1 (call x)) (x : Phrase α) :
    ((grammar.rule x).denote call).Settles (bound + 1) 1 := by
  cases x with
  | expression => exact settles_expressionRule (h _) (h _)
  | type => exact settles_typeRule (h _)

theorem forward_below {c : Cursor} {call : {α : Type} → Phrase α → Parser α}
    (h : ∀ {α : Type} (x : Phrase α), (call x).Forward) (x : Phrase α) :
    (below c call x).Forward := by
  intro d reply hd
  unfold below at hd
  split at hd
  · exact h x hd
  · cases hd

/-- **A phrase uses other phrases only at greater offsets than its own.** -/
theorem exists_reply_beyond (x : Phrase α) {depth : Nat} {c : Cursor} (hc : c.rest.length ≤ depth) :
    ∃ reply, grammar.call (depth + 1) x c = some reply ∧
      (grammar.rule x).denote (beyond c (grammar.call depth)) c = some reply := by
  have hsettles : ∀ {α : Type} (x : Phrase α),
      Parser.Settles c.rest.length 1 (below c (grammar.call depth) x) := by
    intro α x d hd
    rw [below, if_pos hd]
    exact (settles_call depth x).mono hc (Nat.le_refl 1) d hd
  have hfwd : ∀ {α : Type} (x : Phrase α), (below c (grammar.call depth) x).Forward :=
    fun x => forward_below (grammar.forward_call depth) x
  obtain ⟨reply, hr, -⟩ := settles_rule hsettles x c (Nat.lt_succ_self _)
  refine ⟨reply, ?_, ?_⟩
  · refine Rule.kept_denote hfwd (fun x d _ reply h => ?_) _ c c.onward_self reply hr
    unfold below at h
    split at h
    · exact h
    · cases h
  · refine Rule.kept_denote hfwd (fun x d hd reply h => ?_) _ c c.onward_self reply hr
    -- Behind the cursor fewer characters are left exactly at greater offsets.
    obtain ⟨text, hspans⟩ := hd
    unfold below at h
    split at h
    · next hlt =>
      rw [beyond, if_pos (hspans.offset_lt_iff.mpr hlt)]
      exact h
    · cases h

/-! ## Atoms in a row -/

/-- A rule that always consumes ends further on, to whatever depth names are unfolded. -/
theorem offset_lt_of_settles {r : Rule Phrase α}
    (hr : ∀ deep, (r.denote (grammar.call deep)).Settles deep 1) {depth : Nat} {c next : Cursor}
    {value : α} (h : (r.denote (grammar.call depth)).Yields c value next) :
    c.position.offset < next.position.offset := by
  have hle := Nat.le_max_left depth (c.rest.length + 1)
  have hle' := Nat.le_max_right depth (c.rest.length + 1)
  generalize max depth (c.rest.length + 1) = deep at hle hle'
  have hsettles := (hr deep).mono hle' (Nat.le_refl 1)
  obtain ⟨progress, h⟩ := h
  have hdeep := Rule.kept_denote (grammar.forward_call depth)
    (fun x => grammar.kept_call c hle x) r c c.onward_self _ h
  exact hsettles.offset_lt (Rule.forward_denote (grammar.forward_call deep) r) ⟨progress, hdeep⟩

/-- An atom ends at a greater offset than it starts, to whatever depth names are unfolded. -/
theorem offset_lt_of_atom {depth : Nat} {c next : Cursor} {e : Expr}
    (h : (atom.denote (grammar.call depth)).Yields c e next) :
    c.position.offset < next.position.offset := by
  refine offset_lt_of_settles (fun deep => ?_) h
  exact (settles_atom (settles_call deep expression) (settles_call deep Phrase.type)).mono
    (Nat.le_succ deep) (Nat.le_refl 1)

/-! ## Whole texts -/

/--
**Reading repeats nothing without moving on, and ends.** A bound above the length of the text gives
the result of reading; a phrase uses phrases only at greater offsets; atoms in a row and the turns
of a chain start at greater and greater offsets.
-/
theorem reading_moves_on_and_ends :
    (∀ {α : Type} (x : Phrase α) (source : String) (bound : Nat), source.length < bound →
      grammar.run bound x.whole source = some (x.read source)) ∧
    (∀ {α : Type} (x : Phrase α) (depth : Nat) (c : Cursor), c.rest.length ≤ depth →
      ∃ reply, grammar.call (depth + 1) x c = some reply ∧
        (grammar.rule x).denote (beyond c (grammar.call depth)) c = some reply) ∧
    ∀ (depth : Nat) (c next : Cursor),
      (∀ e, (atom.denote (grammar.call depth)).Yields c e next →
        c.position.offset < next.position.offset) ∧
      (∀ l ∈ Level.ofTable (grammar.call depth) term operatorTable, ∀ a, l.Turn a c next →
        c.position.offset < next.position.offset) ∧
      (∀ l ∈ Level.ofTable (grammar.call depth) typeAtom [[infixed "->" Ty.arrow .right]], ∀ a,
        l.Turn a c next → c.position.offset < next.position.offset) := by
  refine ⟨fun x source bound h => grammar.run_mono h (x.run_whole source), fun x depth c hc =>
    exists_reply_beyond x hc, fun depth c next => ⟨fun e => offset_lt_of_atom, ?_, ?_⟩⟩
  · intro l hl a
    refine Level.turn_offset_lt_of_mem (grammar.forward_call depth) ?_ hl
    simp only [operatorTable, List.mem_cons, List.not_mem_nil, or_false, forall_eq_or_imp,
      forall_eq]
    have hop : ∀ op a bound,
        ((binary op a).rule.denote (grammar.call depth)).Settles bound 1 :=
      fun op a bound => settles_infixed (by cases op <;> decide) _ a bound
    exact ⟨hop _ _, hop _ _, hop _ _, ⟨hop _ _, hop _ _⟩, hop _ _, hop _ _⟩
  · intro l hl a
    refine Level.turn_offset_lt_of_mem (grammar.forward_call depth) ?_ hl
    simp only [List.mem_cons, List.not_mem_nil, or_false, forall_eq]
    exact settles_infixed (by decide) _ _

/-- A whole text, a phrase inside a phrase, an atom in a row and a turn of a chain. -/
theorem reading_moves_on_and_ends_nested :
    grammar.run 20 expression.whole "f 1 + \\x : Int. (x)" =
      some (expression.read "f 1 + \\x : Int. (x)") ∧
    (∃ reply, grammar.call 6 expression (.start "f (1)") = some reply ∧
      expressionRule.denote (beyond (.start "f (1)") (grammar.call 5)) (.start "f (1)") =
        some reply) ∧
    (Cursor.start "1 + 2").position.offset < ((Cursor.start "1 + 2").advanceBy 2).position.offset ∧
    (Cursor.start "-> Int").position.offset <
      ((Cursor.start "-> Int").advanceBy 6).position.offset :=
  ⟨reading_moves_on_and_ends.1 expression _ 20 (by decide),
    reading_moves_on_and_ends.2.1 expression 5 (.start "f (1)") (by decide),
    (reading_moves_on_and_ends.2.2 1 (.start "1 + 2") _).1 (.lit (.int 1)) ⟨true, rfl⟩,
    (reading_moves_on_and_ends.2.2 1 (.start "-> Int") _).2.2 _ List.mem_cons_self .right
      ⟨Ty.arrow, (Cursor.start "-> Int").advanceBy 3, .int, ⟨true, rfl⟩, ⟨true, rfl⟩⟩⟩

end Phrase

end TypedLambda
