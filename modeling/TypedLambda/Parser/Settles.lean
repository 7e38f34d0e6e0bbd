import TypedLambda.Parser.Rule

/-!
# Parsers whose runs end

A parser settles below a bound if it replies from every cursor with fewer characters left than the
bound, never goes back, and consumes a stated number of characters whenever it succeeds. The bound
makes the notion fit for recursive rules: after a token has been read fewer characters are left, so
a rule that uses itself only behind a token needs itself only below a smaller bound.

**Main statements.** `Settles.bind` lowers the bound of the second parser by what the first one
consumes, `Settles.many` needs a body that consumes, and `Level.settles_parse` needs operands and
operators that consume.
-/

namespace TypedLambda

/--
Replies from every cursor with fewer than `bound` characters left, with no more of them left
afterwards, and after a success with at least `gain` fewer.
-/
def Parser.Settles {α : Type} (bound gain : Nat) (p : Parser α) : Prop :=
  ∀ c : Cursor, c.rest.length < bound →
    ∃ r, p c = some r ∧ r.cursor.rest.length ≤ c.rest.length ∧
      (r.step.isGood = true → r.cursor.rest.length + gain ≤ c.rest.length)

namespace Parser

variable {α β : Type} {p q : Parser α} {bound bound' gain gain' : Nat}

/-- The bound may be lowered, and less may be promised. -/
theorem Settles.mono (h : p.Settles bound gain) (hb : bound' ≤ bound) (hg : gain' ≤ gain) :
    p.Settles bound' gain' := by
  intro c hc
  obtain ⟨r, hr, hle, hgood⟩ := h c (by omega)
  exact ⟨r, hr, hle, fun hs => by have := hgood hs; omega⟩

/-! ## Success, failure and choice -/

theorem settles_succeed (value : α) : (succeed value).Settles bound 0 :=
  fun _ _ => ⟨_, rfl, Nat.le_refl _, fun _ => Nat.le_refl _⟩

/-- A failure promises any gain, as only a success has to keep it. -/
theorem settles_fail (problem : Problem) : (fail problem : Parser α).Settles bound gain :=
  fun _ _ => ⟨_, rfl, Nat.le_refl _, fun h => by simp [Step.isGood] at h⟩

theorem settles_nothing : (nothing : Parser α).Settles bound gain :=
  fun _ _ => ⟨_, rfl, Nat.le_refl _, fun h => by simp [Step.isGood] at h⟩

/-- **After a parser that consumes, the next one needs to settle only below a smaller bound.** -/
theorem Settles.bind {f : α → Parser β} (h : p.Settles bound gain)
    (hf : ∀ a, (f a).Settles (bound - gain) gain') : (p.bind f).Settles bound (gain + gain') := by
  intro c hc
  obtain ⟨⟨step, next⟩, hr, hle, hgood⟩ := h c hc
  cases step with
  | good progress value =>
    have hlt := hgood rfl
    simp only at hle hlt
    obtain ⟨r, hr', hle', hgood'⟩ := hf value next (by omega)
    refine ⟨r.onStep (Step.after progress), by simp [Parser.bind, hr, hr'], ?_, fun hs => ?_⟩
    · simp only [Reply.onStep_cursor]
      omega
    · have := hgood' (by simpa using hs)
      simp only [Reply.onStep_cursor]
      omega
  | bad progress problems =>
    refine ⟨⟨.bad progress problems, next⟩, by simp [Parser.bind, hr], hle, fun hs => ?_⟩
    simp [Step.isGood] at hs

theorem Settles.map (f : α → β) (h : p.Settles bound gain) : (p.map f).Settles bound gain := by
  intro c hc
  obtain ⟨r, hr, hle, hgood⟩ := h c hc
  exact ⟨r.onStep (Step.map f), by simp [Parser.map, hr], hle, fun hs => hgood (by simpa using hs)⟩

theorem Settles.orElse (hp : p.Settles bound gain) (hq : q.Settles bound gain) :
    (p.orElse q).Settles bound gain := by
  intro c hc
  obtain ⟨r, hr, hle, hgood⟩ := hp c hc
  obtain ⟨r', hr', hle', hgood'⟩ := hq c hc
  unfold Parser.orElse
  rw [hr]
  split
  · rw [hr']
    split
    · exact ⟨_, rfl, Nat.le_refl _, fun hs => by simp [Step.isGood] at hs⟩
    · exact ⟨r', rfl, hle', hgood'⟩
  · exact ⟨r, rfl, hle, hgood⟩

theorem Settles.backtrackable (h : p.Settles bound gain) : p.backtrackable.Settles bound gain := by
  intro c hc
  obtain ⟨r, hr, hle, hgood⟩ := h c hc
  exact ⟨r.onStep Step.withoutProgress, by simp [Parser.backtrackable, hr], hle,
    fun hs => hgood (by simpa using hs)⟩

/-- **Repeating a parser that consumes comes to an end.** -/
theorem Settles.many (h : p.Settles bound (gain + 1)) :
    Parser.Settles bound 0 p.many := by
  intro c
  induction hn : c.rest.length using Nat.strongRecOn generalizing c with
  | ind n ih =>
    subst hn
    intro hc
    obtain ⟨⟨step, next⟩, hr, hle, hgood⟩ := h c hc
    rw [Parser.many, hr]
    match step, hle, hgood with
    | .good progress value, hle, hgood =>
      have hlt := hgood rfl
      simp only at hle hlt
      obtain ⟨r, hr', hle', -⟩ := ih next.rest.length (by omega) next rfl (by omega)
      dsimp only
      rw [if_pos (by omega), hr']
      exact ⟨_, rfl, by simp only [Reply.onStep_cursor]; omega,
        fun _ => by simp only [Reply.onStep_cursor]; omega⟩
    | .bad true problems, hle, _ =>
      exact ⟨_, rfl, hle, fun hs => by simp [Step.isGood] at hs⟩
    | .bad false problems, _, _ => exact ⟨_, rfl, Nat.le_refl _, fun _ => Nat.le_refl _⟩

/-! ## Tokens -/

theorem settles_token (text : String) (problem : Problem) (runsOn : Char → Bool) :
    (token text problem runsOn).Settles bound text.length := by
  intro c hc
  unfold token
  split
  · next h =>
    simp only [Bool.and_eq_true] at h
    have hlen := (List.isPrefixOf_iff_prefix.mp h.1).length_le
    rw [String.length_toList] at hlen
    refine ⟨_, rfl, ?_, fun _ => ?_⟩ <;> simp only [Cursor.advanceBy_rest_length] <;> omega
  · exact settles_fail problem c hc

theorem settles_chompWhile (inClass : Char → Bool) : (chompWhile inClass).Settles bound 0 := by
  intro c _
  refine ⟨_, rfl, ?_, fun _ => ?_⟩ <;> simp only [Cursor.advanceBy_rest_length] <;> omega

theorem settles_endOfInput : endOfInput.Settles bound 0 := by
  intro c hc
  unfold endOfInput
  split
  · exact settles_fail _ c hc
  · exact settles_succeed _ c hc

theorem settles_name (rules : NameRules) : (name rules).Settles bound 1 := by
  intro c hc
  unfold name
  split
  · next first rest hrest =>
    dsimp only
    split
    · refine ⟨_, rfl, ?_, fun _ => ?_⟩ <;>
        simp only [Cursor.advanceBy_rest_length, List.length_cons, hrest] <;> omega
    · exact settles_fail _ c hc
  · exact settles_fail _ c hc

theorem literalDigits_isPrefixOf (text : List Char) : literalDigits text <+: text := by
  unfold literalDigits
  split
  · next h =>
    have := List.takeWhile_prefix (l := text) Char.isDigit
    rw [h] at this
    exact (List.prefix_append ['0'] _).trans this
  · exact List.takeWhile_prefix _

theorem settles_int : int.Settles bound 1 := by
  intro c hc
  unfold int
  dsimp only
  split
  · exact settles_fail _ c hc
  · next h =>
    have hpos : 0 < (literalDigits c.rest).length := by
      cases hd : literalDigits c.rest with
      | nil => simp [hd] at h
      | cons => simp
    have hlen := (literalDigits_isPrefixOf c.rest).length_le
    split
    · refine ⟨_, rfl, ?_, fun _ => ?_⟩ <;> simp only [Cursor.advanceBy_rest_length] <;> omega
    · exact ⟨_, rfl, Nat.le_refl _, fun hs => by simp [Step.isGood] at hs⟩

end Parser

/-! ## Levels -/

namespace Level

variable {α : Type} {l : Level α} {bound : Nat}

/-- Looking ahead for an operator comes to an end. -/
theorem firstSeen_isSome (ho : ∀ a, (l.operator a).Settles bound 1) (as : List Associativity)
    {c : Cursor} (hc : c.rest.length < bound) : ∃ found, l.firstSeen as c = some found := by
  induction as with
  | nil => exact ⟨_, rfl⟩
  | cons a others ih =>
    obtain ⟨r, hr, -⟩ := ho a c hc
    unfold firstSeen sees
    rw [hr]
    cases hg : r.step.isGood
    · simpa [hg] using ih
    · exact ⟨some a, by simp [hg]⟩

theorem settles_close (ho : ∀ a, (l.operator a).Settles bound 1) (refused : List Associativity)
    (value : α) : (l.close refused value).Settles bound 0 := by
  intro c hc
  obtain ⟨found, hf⟩ := firstSeen_isSome ho refused hc
  unfold close
  rw [hf]
  cases found with
  | none => exact Parser.settles_succeed value c hc
  | some a => exact ⟨_, rfl, Nat.le_refl _, fun hs => by simp [Step.isGood] at hs⟩

theorem settles_single (ht : l.term.Settles bound 1) (ho : ∀ a, (l.operator a).Settles bound 1)
    (lhs : α) : (l.single lhs).Settles bound 0 :=
  ((ho .non).bind fun _ => (ht.mono (by omega) (Nat.le_refl _)).bind fun _ =>
    (settles_close ho _ _).mono (by omega) (Nat.le_refl _)).mono (Nat.le_refl _) (by omega)

/-- A chain to the left ends, since each turn reads an operator. -/
theorem settles_chainLeft (ht : l.term.Settles bound 1)
    (ho : ∀ a, (l.operator a).Settles bound 1) (lhs : α) :
    Parser.Settles bound 0 (l.chainLeft lhs) := by
  intro c
  induction hn : c.rest.length using Nat.strongRecOn generalizing c lhs with
  | ind n ih =>
    subst hn
    intro hc
    obtain ⟨⟨step, next⟩, hr, hle, hgood⟩ := ho .left c hc
    rw [chainLeft, hr]
    match step, hle, hgood with
    | .good progress combine, hle, hgood =>
      have hlt := hgood rfl
      simp only at hle hlt
      have hgo : ∀ rhs, Parser.Settles (c.rest.length - 1) 0 fun next =>
          if next.rest.length < c.rest.length then l.chainLeft (combine lhs rhs) next
          else none := by
        intro rhs c' hc'
        dsimp only
        rw [if_pos (by omega)]
        exact ih c'.rest.length (by omega) (combine lhs rhs) c' rfl (by omega)
      obtain ⟨r, hr', hle', hgood'⟩ :=
        ((ht.mono (Nat.le_of_lt hc) (Nat.le_refl 1)).bind hgo) next (by omega)
      refine ⟨r.onStep (Step.after progress), by simp only [hr', Option.map_some], ?_, fun hs => ?_⟩
      · simp only [Reply.onStep_cursor]
        omega
      · simp only [Reply.onStep_cursor]
        omega
    | .bad true problems, hle, _ =>
      exact ⟨_, rfl, hle, fun hs => by simp [Step.isGood] at hs⟩
    | .bad false problems, _, _ => exact settles_close ho _ lhs c hc

theorem settles_chainRight (ht : l.term.Settles bound 1)
    (ho : ∀ a, (l.operator a).Settles bound 1) (lhs : α) :
    Parser.Settles bound 0 (l.chainRight lhs) := by
  intro c
  induction hn : c.rest.length using Nat.strongRecOn generalizing c lhs with
  | ind n ih =>
    subst hn
    intro hc
    have hgo : ∀ operand, Parser.Settles c.rest.length 0 (l.rightTail c operand) := by
      intro operand next hnext
      obtain ⟨r, hr, -⟩ := ho .right next (by omega)
      simp only [rightTail, sees, hr, Option.map_some]
      cases r.step.isGood with
      | true =>
        dsimp only
        rw [if_pos hnext]
        exact ih next.rest.length hnext operand next rfl (by omega)
      | false => exact settles_close ho _ operand next (by omega)
    have hterm : l.term.Settles (c.rest.length + 1 - 1) 1 := ht.mono (by omega) (Nat.le_refl 1)
    have hright : (l.operator .right).Settles (c.rest.length + 1) 1 :=
      (ho .right).mono (by omega) (Nat.le_refl 1)
    rw [chainRight_eq]
    exact (hright.bind fun combine => hterm.bind fun operand =>
      ((hgo operand).map (combine lhs)).mono (by omega) (Nat.le_refl 0)).mono
        (Nat.le_refl _) (Nat.zero_le _) c (Nat.lt_succ_self _)

/-- **A level settles if its operands and its operators consume.** -/
theorem settles_parse (ht : l.term.Settles bound 1) (ho : ∀ a, (l.operator a).Settles bound 1) :
    l.parse.Settles bound 1 := by
  refine (ht.bind fun first => ?_ : l.parse.Settles bound (1 + 0))
  intro c hc
  obtain ⟨found, hf⟩ := firstSeen_isSome ho [.right, .left, .non] (c := c) (by omega)
  simp only [hf]
  match found with
  | none => exact Parser.settles_succeed first c hc
  | some .right => exact settles_chainRight ht ho first c (by omega)
  | some .left => exact settles_chainLeft ht ho first c (by omega)
  | some .non => exact settles_single ht ho first c (by omega)

end Level

/-! ## Rules -/

namespace Rule

variable {σ : Type → Type} {call : {α : Type} → σ α → Parser α} {α β : Type} {r : Rule σ α}
  {s : Rule σ β} {bound gain gain' : Nat}

theorem settles_map (f : α → β) (h : (r.denote call).Settles bound gain) :
    ((r.map f).denote call).Settles bound gain :=
  h.bind fun value => Parser.settles_succeed (f value)

/-- What two rules gain adds up, and the second only has to settle behind the first. -/
theorem settles_seq (hr : (r.denote call).Settles bound gain)
    (hs : (s.denote call).Settles (bound - gain) gain') :
    ((r.seq s).denote call).Settles bound (gain + gain') :=
  hr.bind fun a => hs.bind fun b => Parser.settles_succeed (a, b)

theorem settles_skip (hr : (r.denote call).Settles bound gain)
    (hs : (s.denote call).Settles (bound - gain) gain') :
    ((r.skip s).denote call).Settles bound (gain + gain') :=
  hr.bind fun a => hs.bind fun _ => Parser.settles_succeed a

theorem settles_skipLeft (hr : (r.denote call).Settles bound gain)
    (hs : (s.denote call).Settles (bound - gain) gain') :
    ((r.skipLeft s).denote call).Settles bound (gain + gain') :=
  hr.bind fun _ => hs

theorem settles_oneOf {rs : List (Rule σ α)}
    (h : ∀ r ∈ rs, (r.denote call).Settles bound gain) :
    ((oneOf rs).denote call).Settles bound gain := by
  induction rs with
  | nil => exact Parser.settles_nothing
  | cons r rs ih =>
    exact (h r List.mem_cons_self).orElse (ih fun s hs => h s (List.mem_cons_of_mem r hs))

theorem settles_spaced (h : (r.denote call).Settles bound gain) :
    (r.spaced.denote call).Settles bound gain :=
  have hs : ((spaces : Rule σ Unit).denote call).Settles (bound - gain) 0 :=
    Parser.settles_chompWhile isLayout
  (settles_skip h hs).mono (Nat.le_refl bound) (Nat.le_refl gain)

theorem settles_sign {text : String} (h : 1 ≤ text.length) :
    (((symbol text).spaced : Rule σ Unit).denote call).Settles bound 1 :=
  settles_spaced ((Parser.settles_token text _ _).mono (Nat.le_refl bound) h)

theorem settles_word {text : String} (h : 1 ≤ text.length) :
    (((keyword text).spaced : Rule σ Unit).denote call).Settles bound 1 :=
  settles_spaced ((Parser.settles_token text _ _).mono (Nat.le_refl bound) h)

theorem settles_many1 (h : (r.denote call).Settles bound 1) :
    (r.many1.denote call).Settles bound 1 :=
  have hm : (r.many.denote call).Settles (bound - 1) 0 :=
    (Parser.Settles.many h).mono (Nat.sub_le bound 1) (Nat.le_refl 0)
  (settles_seq h hm).mono (Nat.le_refl bound) (Nat.le_refl 1)

/-- **Between parentheses a rule needs to settle only below a smaller bound.** -/
theorem settles_parens (h : (r.denote call).Settles (bound - 1) 0) :
    ((parens r).denote call).Settles bound 1 :=
  (settles_skip (settles_skipLeft (settles_sign (by decide)) (settles_spaced h))
    (settles_sign (by decide))).mono (Nat.le_refl bound) (by omega)

/-- A table settles if its operands and all its operators read something. -/
theorem settles_table {levels : List (List (Operator σ α))} {term : Rule σ α}
    (ht : (term.denote call).Settles bound 1)
    (ho : ∀ level ∈ levels, ∀ operator ∈ level, (operator.rule.denote call).Settles bound 1) :
    ((table levels term).denote call).Settles bound 1 := by
  induction levels with
  | nil => exact ht
  | cons level levels ih =>
    refine Level.settles_parse (ih fun l hl => ho l (List.mem_cons_of_mem level hl)) fun a => ?_
    refine settles_oneOf fun r hr => ?_
    obtain ⟨operator, hmem, rfl⟩ := List.mem_map.mp hr
    exact ho level List.mem_cons_self operator (List.mem_filter.mp hmem).1

end Rule

end TypedLambda
