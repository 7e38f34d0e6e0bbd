import Mathlib.Data.List.Induction
import TypedLambda.Parser.Settles
import TypedLambda.Proofs.Parser.Movement
import TypedLambda.Source.Walk

/-!
# Cursors stand at places of their text

A cursor keeps an offset in bytes, a row, a column and the rest of the text, and moves all of them
together. They say the same: the offset is a boundary between two characters of the text, the rest
is what follows it, and row and column count the lines and characters before it.

This holds of every cursor that is not before the start (`Cursor.placed_of_spans`), hence wherever a
walk comes to and at every place that it has marked (`Walk.onward_run`).
-/

namespace TypedLambda

/-! ## Cuts of a text -/

/--
The text before a byte offset and the text from there on. Inside a character and behind the end
there is no cut.
-/
def cut? (text : String) (offset : Nat) : Option (String × String) :=
  (text.pos? ⟨offset⟩).map fun p => ((text.sliceTo p).copy, (text.sliceFrom p).copy)

/-- A text is cut between two parts by the number of bytes of the first. -/
theorem cut?_append (s t : String) : cut? (s ++ t) s.utf8ByteSize = some (s, t) := by
  have hvalid : (⟨s.utf8ByteSize⟩ : String.Pos.Raw).IsValid (s ++ t) :=
    String.Pos.Raw.isValid_iff_exists_append.mpr ⟨s, t, rfl, rfl⟩
  have hpos : (s ++ t).pos? ⟨s.utf8ByteSize⟩ = some ((s ++ t).pos _ hvalid) := by
    unfold String.pos? String.Slice.pos?
    rw [dif_pos (String.Pos.Raw.isValidForSlice_eq_true_iff.mpr hvalid.toSlice)]
    rfl
  have hsplits : ((s ++ t).pos _ hvalid).Splits s t := ⟨rfl, rfl⟩
  unfold cut?
  rw [hpos, Option.map_some]
  rw [String.copy_sliceTo_eq_iff_exists_splits.mpr ⟨t, hsplits⟩,
    String.copy_sliceFrom_eq_iff_exists_splits.mpr ⟨s, hsplits⟩]

/-- A text cut behind its first characters, by the bytes that they take. -/
theorem cut?_ofList (s t : List Char) :
    cut? (String.ofList (s ++ t)) (String.ofList s).utf8ByteSize =
      some (String.ofList s, String.ofList t) := by
  rw [String.ofList_append]
  exact cut?_append _ _

/-! ## Bytes -/

theorem utf8ByteSize_ofList_cons (a : Char) (text : List Char) :
    (String.ofList (a :: text)).utf8ByteSize =
      a.utf8Size + (String.ofList text).utf8ByteSize := by
  rw [← List.singleton_append, String.ofList_append, String.utf8ByteSize_append,
    ← String.singleton_eq_ofList, String.utf8ByteSize_singleton]

/-- Digits take one byte each. -/
theorem utf8ByteSize_ofList_digits {text : List Char} (h : ∀ a ∈ text, a.isDigit = true) :
    (String.ofList text).utf8ByteSize = text.length := by
  induction text with
  | nil => rfl
  | cons a text ih =>
    rw [List.forall_mem_cons] at h
    have hsize : a.utf8Size = 1 := by
      rw [Char.utf8Size_eq_one_iff]
      have hle := (Bool.and_eq_true_iff.mp h.1).2
      exact UInt32.le_trans (of_decide_eq_true hle) (by decide)
    rw [utf8ByteSize_ofList_cons, hsize, ih h.2, List.length_cons, Nat.add_comm]

/-! ## Positions -/

namespace Position

/-- How many characters stand behind the last line feed of a text. -/
def lastLineLength (text : List Char) : Nat := (text.reverse.takeWhile (· != '\n')).length

theorem lastLineLength_le (text : List Char) : lastLineLength text ≤ text.length := by
  rw [← List.length_reverse]
  exact (List.takeWhile_prefix _).length_le

/-- One more character makes the last line longer, or starts a new one. -/
theorem lastLineLength_concat (text : List Char) (a : Char) :
    lastLineLength (text ++ [a]) = if a = '\n' then 0 else lastLineLength text + 1 := by
  unfold lastLineLength
  rw [List.reverse_append, List.reverse_singleton, List.singleton_append, List.takeWhile_cons]
  by_cases ha : a = '\n' <;> simp [ha]

/-- Text moves the offset by the bytes that it takes. -/
theorem offset_after (p : Position) (text : List Char) :
    (p.after text).offset = p.offset + (String.ofList text).utf8ByteSize := by
  induction text generalizing p with
  | nil => rfl
  | cons a text ih =>
    have hnext : (p.next a).offset = p.offset + a.utf8Size := by
      unfold next
      split <;> rfl
    rw [after_cons, ih, hnext, utf8ByteSize_ofList_cons, Nat.add_assoc]

/-- **Rows count line feeds, and columns the characters behind the last of them.** -/
theorem row_column_after (text : List Char) :
    (start.after text).row = 1 + text.count '\n' ∧
      (start.after text).column = 1 + lastLineLength text := by
  -- from the end of the text, because the last character decides how row and column change
  induction text using List.reverseRecOn with
  | nil => exact ⟨rfl, rfl⟩
  | append_singleton text a ih =>
    obtain ⟨hrow, hcolumn⟩ := ih
    have hnext : start.after (text ++ [a]) = (start.after text).next a := after_append _ _ _
    rw [hnext, List.count_append, lastLineLength_concat]
    unfold next
    by_cases ha : a = '\n'
    · simp [ha, hrow, Nat.add_assoc]
    · simp [ha, hrow, hcolumn, Nat.add_assoc]

end Position

/-! ## Cursors -/

namespace Cursor

variable {source : String} {c d : Cursor}

/-- The cursor stands in a text, with the given part of it before the cursor. -/
structure Placed (source before : String) (c : Cursor) : Prop where
  /-- The offset is a boundary between characters, and the rest is the text from there on. -/
  cut : cut? source c.position.offset = some (before, String.ofList c.rest)
  offset_le : c.position.offset ≤ source.utf8ByteSize
  append : before ++ String.ofList c.rest = source
  row : c.position.row = 1 + before.toList.count '\n'
  column : c.position.column = 1 + Position.lastLineLength before.toList

/-- **A cursor that is not before the start stands in the text.** -/
theorem placed_of_spans {before : List Char} (h : (start source).Spans before c) :
    c.Placed source (String.ofList before) := by
  have hsource : source = String.ofList before ++ String.ofList c.rest := by
    rw [← String.ofList_append, ← h.rest]
    exact (String.ofList_toList).symm
  have hoffset : c.position.offset = (String.ofList before).utf8ByteSize := by
    rw [h.position, Position.offset_after]
    exact Nat.zero_add _
  obtain ⟨hrow, hcolumn⟩ := Position.row_column_after before
  refine ⟨?_, ?_, hsource.symm, ?_, ?_⟩
  · rw [hoffset]
    conv_lhs => rw [hsource]
    exact cut?_append _ _
  · rw [hoffset, hsource, String.utf8ByteSize_append]
    exact Nat.le_add_right _ _
  · rw [h.position, String.toList_ofList]
    exact hrow
  · rw [h.position, String.toList_ofList]
    exact hcolumn

/-- Row and column are at most one more than the number of characters of the text. -/
theorem Placed.row_column_le {before : String} (h : c.Placed source before) :
    c.position.row ≤ source.length + 1 ∧ c.position.column ≤ source.length + 1 := by
  have hlength : before.toList.length ≤ source.length := by
    rw [← h.append, String.length_append, String.length_toList]
    exact Nat.le_add_right _ _
  have hrow : before.toList.count '\n' ≤ before.toList.length := List.count_le_length
  have hcolumn := Position.lastLineLength_le before.toList
  rw [h.row, h.column]
  omega

/--
The pieces that tokens cut from the text at a cursor, by a number of bytes, are the characters
meant, and the cut is never inside a character.
-/
structure CutByTokens (c : Cursor) : Prop where
  fixed : ∀ text : String, text.toList <+: c.rest →
    cut? (String.ofList c.rest) text.utf8ByteSize =
      some (text, String.ofList (c.rest.drop text.length))
  word : ∀ count,
    cut? (String.ofList c.rest) ((c.advanceBy count).position.offset - c.position.offset) =
      some (String.ofList (c.rest.take count), String.ofList (c.advanceBy count).rest)
  /-- A literal is cut by the number of its digits. -/
  digits : cut? (String.ofList c.rest) (literalDigits c.rest).length =
    some (String.ofList (literalDigits c.rest),
      String.ofList (c.rest.drop (literalDigits c.rest).length))

/-- Tokens cut the text between characters, at every cursor. -/
theorem cutByTokens (c : Cursor) : c.CutByTokens := by
  refine ⟨fun text htext => ?_, fun count => ?_, ?_⟩
  · have hcut := cut?_ofList text.toList (c.rest.drop text.toList.length)
    rw [List.prefix_iff_eq_append.mp htext, String.ofList_toList, String.length_toList] at hcut
    exact hcut
  · have hbytes : (c.advanceBy count).position.offset - c.position.offset =
        (String.ofList (c.rest.take count)).utf8ByteSize := by
      rw [(c.spans_advanceBy count).position, Position.offset_after, Nat.add_sub_cancel_left]
    have hcut := cut?_ofList (c.rest.take count) (c.rest.drop count)
    rw [List.take_append_drop] at hcut
    rw [hbytes]
    exact hcut
  · have hbytes := utf8ByteSize_ofList_digits fun a (ha : a ∈ literalDigits c.rest) =>
      Parser.isDigit_of_mem_literalDigits ha
    have hcut := cut?_ofList (literalDigits c.rest) (c.rest.drop (literalDigits c.rest).length)
    rw [List.prefix_iff_eq_append.mp (Parser.literalDigits_isPrefixOf c.rest), hbytes] at hcut
    exact hcut

/--
The cursor stands in a text, its row and column fit in 32 bits, and the pieces cut there are whole
characters.
-/
structure StandsIn (source : String) (c : Cursor) : Prop where
  placed : ∃ before, c.Placed source before
  row_lt : c.position.row < UInt32.size
  column_lt : c.position.column < UInt32.size
  cuts : c.CutByTokens

/-- A cursor that a run comes to stands in the text, if the text is short enough. -/
theorem standsIn_of_onward (hsource : source.length < UInt32.size - 1)
    (h : (start source).Onward c) : c.StandsIn source := by
  obtain ⟨before, h⟩ := h
  have hplaced := placed_of_spans h
  have hle := hplaced.row_column_le
  exact ⟨⟨_, hplaced⟩, by omega, by omega, c.cutByTokens⟩

theorem onward_advance (c : Cursor) : c.Onward c.advance := by
  have hone : c.advanceBy 1 = c.advance := by rw [advanceBy_succ, advanceBy_zero]
  rw [← hone]
  exact c.onward_advanceBy 1

end Cursor

/-! ## Walks -/

namespace Walk

/-- Where a walk is and where it can go back to. -/
def cursors (w : Walk) : List Cursor := w.cursor :: w.marks

theorem onward_move {b : Cursor} {w : Walk} (h : ∀ c ∈ w.cursors, b.Onward c) (m : Move) :
    ∀ c ∈ (w.move m).cursors, b.Onward c := by
  unfold cursors at h ⊢
  rw [List.forall_mem_cons] at h ⊢
  obtain ⟨hcursor, hmarks⟩ := h
  cases m with
  | advance => exact ⟨hcursor.trans w.cursor.onward_advance, hmarks⟩
  | advanceBy count => exact ⟨hcursor.trans (w.cursor.onward_advanceBy count), hmarks⟩
  | mark =>
    refine ⟨hcursor, fun c hc => ?_⟩
    rcases List.mem_append.mp hc with hc | hc
    · exact hmarks c hc
    · rw [List.mem_singleton.mp hc]
      exact hcursor
  | restore mark =>
    refine ⟨?_, hmarks⟩
    show b.Onward ((w.marks[mark]?).getD w.cursor)
    cases hmark : w.marks[mark]? with
    | none => exact hcursor
    | some c => exact hmarks c (List.mem_of_getElem? hmark)

/-- **A walk never leaves the text that follows its start**, wherever it goes back to. -/
theorem onward_run (source : String) (moves : List Move) :
    ∀ c ∈ ((start source).run moves).cursors, (Cursor.start source).Onward c := by
  suffices h : ∀ w : Walk, (∀ c ∈ w.cursors, (Cursor.start source).Onward c) →
      ∀ c ∈ (w.run moves).cursors, (Cursor.start source).Onward c by
    refine h _ fun c hc => ?_
    have hstart : c = Cursor.start source := by simpa [cursors, start] using hc
    rw [hstart]
    exact Cursor.onward_self _
  induction moves with
  | nil => exact fun w hw => hw
  | cons m moves ih => exact fun w hw => ih (w.move m) (onward_move hw m)

end Walk

end TypedLambda
