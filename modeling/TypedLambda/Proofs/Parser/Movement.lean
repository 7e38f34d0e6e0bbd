import TypedLambda.Proofs.Parser.Invariants
import TypedLambda.Proofs.Parser.Tokens

/-!
# Parsers move forward

Wherever a run stops, the text between its start and its stop is what it has read: the two cursors
differ by that text (`Cursor.Spans`). This holds of every rule, after successes and after failures,
and it makes a shorter rest and a greater offset the same thing.
-/

namespace TypedLambda

/-! ## Texts between cursors -/

/-- The second cursor stands behind a text that starts at the first. -/
structure Cursor.Spans (c : Cursor) (text : List Char) (d : Cursor) : Prop where
  rest : c.rest = text ++ d.rest
  position : d.position = c.position.after text

theorem Position.offset_le_after (p : Position) (text : List Char) :
    p.offset ≤ (p.after text).offset := by
  induction text generalizing p with
  | nil => exact Nat.le_refl _
  | cons a text ih =>
    rw [after_cons]
    refine Nat.le_trans ?_ (ih (p.next a))
    unfold next
    split <;> exact Nat.le_add_right _ _

/-- Every character takes at least a byte. -/
theorem Position.offset_lt_after (p : Position) {text : List Char} (h : text ≠ []) :
    p.offset < (p.after text).offset := by
  obtain ⟨a, text, rfl⟩ := List.exists_cons_of_ne_nil h
  rw [after_cons]
  refine Nat.lt_of_lt_of_le ?_ ((p.next a).offset_le_after text)
  have := Char.utf8Size_pos a
  unfold next
  split <;> simp only <;> omega

namespace Cursor

variable {c d e : Cursor} {s t : List Char}

theorem spans_self (c : Cursor) : c.Spans [] c := ⟨rfl, rfl⟩

theorem Spans.trans (h : c.Spans s d) (h' : d.Spans t e) : c.Spans (s ++ t) e := by
  refine ⟨?_, ?_⟩
  · rw [h.rest, h'.rest, List.append_assoc]
  · rw [h'.position, h.position, Position.after_append]

/-- A cursor that moves spans the characters that it moves over. -/
theorem spans_advanceBy (c : Cursor) (count : Nat) :
    c.Spans (c.rest.take count) (c.advanceBy count) :=
  ⟨(List.take_append_drop count c.rest).symm, rfl⟩

theorem Spans.length_eq (h : c.Spans s d) : c.rest.length = s.length + d.rest.length := by
  rw [h.rest, List.length_append]

/-- **Along a run the offset grows exactly as the rest shrinks.** -/
theorem Spans.offset_lt_iff (h : c.Spans s d) :
    c.position.offset < d.position.offset ↔ d.rest.length < c.rest.length := by
  have hlen := h.length_eq
  rw [h.position]
  cases s with
  | nil => simp_all
  | cons a s =>
    simp only [List.length_cons] at hlen
    exact ⟨fun _ => by omega, fun _ => Position.offset_lt_after _ (List.cons_ne_nil a s)⟩

/-- The second cursor is not before the first. -/
def Onward (c d : Cursor) : Prop := ∃ text, c.Spans text d

theorem onward_self (c : Cursor) : c.Onward c := ⟨[], c.spans_self⟩

theorem Onward.trans (h : c.Onward d) (h' : d.Onward e) : c.Onward e := by
  obtain ⟨s, h⟩ := h
  obtain ⟨t, h'⟩ := h'
  exact ⟨s ++ t, h.trans h'⟩

theorem onward_advanceBy (c : Cursor) (count : Nat) : c.Onward (c.advanceBy count) :=
  ⟨_, c.spans_advanceBy count⟩

end Cursor

/-! ## Parsers -/

/-- Never goes back, whether it succeeds or fails. -/
def Parser.Forward {α : Type} (p : Parser α) : Prop :=
  ∀ {c : Cursor} {reply : Reply α}, p c = some reply → c.Onward reply.cursor

namespace Parser

variable {α : Type} {p : Parser α}

theorem Forward.yields (hp : p.Forward) {c stop : Cursor} {value : α}
    (h : p.Yields c value stop) : c.Onward stop := by
  obtain ⟨progress, h⟩ := h
  exact hp h

end Parser

/-- Not to go back is a property of all rules. -/
theorem Reply.invariant_onward :
    Reply.Invariant fun {α : Type} c (reply : Reply α) => c.Onward reply.cursor where
  read _ _ _ := Cursor.onward_advanceBy _ _
  missed c _ _ := c.onward_self
  failed h := h
  both _ _ := Cursor.onward_self _
  after h h' := h.trans h'

/-- **Every rule moves forward if the names in it do.** -/
theorem Rule.forward_denote {σ : Type → Type} {call : {α : Type} → σ α → Parser α}
    (h : ∀ {α : Type} (x : σ α), (call x).Forward) {α : Type} (r : Rule σ α) :
    (r.denote call).Forward := by
  intro c reply hr
  exact Rule.always_denote Reply.invariant_onward (fun hstop => hstop) (fun x _ _ hx => h x hx) r hr

/-- No name of a grammar goes back. -/
theorem Grammar.forward_call {σ : Type → Type} (g : Grammar σ) (depth : Nat) {α : Type} (x : σ α) :
    (g.call depth x).Forward := by
  intro c reply hr
  exact g.always_call Reply.invariant_onward (fun hstop => hstop) depth x hr

end TypedLambda
