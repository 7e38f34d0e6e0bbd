import TypedLambda.Proofs.Grammar.Lexical
import TypedLambda.Proofs.Parser.Replies

/-!
# Numbers and their decimal texts

The reader of integers undoes decimal notation. Digits without a zero in front are the decimal text
of their value (`toDigits_ofDigitChars`), so the digits of a number in the grammar are its decimal
text (`decimal_iff`).

**Main statement.** `int_inverts_decimal_text`: an integer is read exactly where its decimal text
starts, as far as digits go, and every other text is refused where it stands.
-/

namespace TypedLambda.Derivation

variable {s behind digits : List Char}

/-! ## Digits and their value -/

/-- The digits of a positive number do not start with a zero. -/
theorem toDigits_eq_cons {m : Nat} (h : 0 < m) :
    ∃ first others, Nat.toDigits 10 m = first :: others ∧ first ≠ '0' := by
  induction m using Nat.strongRecOn with
  | ind m ih =>
    rw [Nat.toDigits_eq_if (by decide)]
    split
    · exact ⟨_, [], rfl, fun hzero => by simp at hzero; omega⟩
    · obtain ⟨first, others, heq, hne⟩ := ih (m / 10) (by omega) (by omega)
      exact ⟨first, _, by rw [heq]; rfl, hne⟩

theorem digit_lt_ten {a : Char} (h : a.isDigit = true) : a.toNat - '0'.toNat < 10 := by
  have hle : a.toNat ≤ '9'.toNat := (Char.isDigit_iff_toNat.mp h).2
  have hnine : '9'.toNat = '0'.toNat + 9 := rfl
  omega

theorem toDigits_digit {a : Char} (h : a.isDigit = true) :
    Nat.toDigits 10 (a.toNat - '0'.toNat) = [a] := by
  have hzero : '0'.toNat ≤ a.toNat := (Char.isDigit_iff_toNat.mp h).1
  have hchar : (a.toNat - '0'.toNat).digitChar = a := by
    rw [← Char.toNat_inj, Nat.toNat_digitChar_of_lt_ten (digit_lt_ten h)]
    exact Nat.add_sub_of_le hzero
  rw [Nat.toDigits_of_lt_base (digit_lt_ten h), hchar]

/-- Digits read behind a positive number are written behind its digits. -/
theorem toDigits_ofDigitChars_from {m : Nat} (hm : 0 < m)
    (hdigits : ∀ a ∈ digits, a.isDigit = true) :
    Nat.toDigits 10 (Nat.ofDigitChars 10 digits m) = Nat.toDigits 10 m ++ digits := by
  induction digits generalizing m with
  | nil => rw [Nat.ofDigitChars_nil, List.append_nil]
  | cons a digits ih =>
    rw [List.forall_mem_cons] at hdigits
    calc Nat.toDigits 10 (Nat.ofDigitChars 10 (a :: digits) m)
        = Nat.toDigits 10 (10 * m + (a.toNat - '0'.toNat)) ++ digits := by
          rw [Nat.ofDigitChars_cons, ih (by omega) hdigits.2]
      _ = Nat.toDigits 10 m ++ [a] ++ digits := by
          rw [← Nat.toDigits_append_toDigits (by decide) hm (digit_lt_ten hdigits.1),
            toDigits_digit hdigits.1]
      _ = Nat.toDigits 10 m ++ a :: digits := List.append_assoc ..

/-- **Digits without a zero in front are the decimal text of their value.** -/
theorem toDigits_ofDigitChars {first : Char} {others : List Char} (hfirst : first.isDigit = true)
    (hne : first ≠ '0') (hothers : ∀ a ∈ others, a.isDigit = true) :
    Nat.toDigits 10 (Nat.ofDigitChars 10 (first :: others) 0) = first :: others := by
  have hzero : '0'.toNat ≤ first.toNat := (Char.isDigit_iff_toNat.mp hfirst).1
  have hne' : first.toNat ≠ '0'.toNat := fun h => hne (Char.toNat_inj.mp h)
  rw [Nat.ofDigitChars_cons, Nat.mul_zero, Nat.zero_add,
    toDigits_ofDigitChars_from (by omega) hothers, toDigits_digit hfirst]
  rfl

/-! ## Decimal texts -/

/--
The decimal text of an integer that is not negative starts a text. All digits there are belong to
it, unless it is a zero. Neither a fraction nor an exponent follows, nor the mark of another base
behind a zero.
-/
structure Decimal (n : Int64) (s behind : List Char) : Prop where
  nonneg : 0 ≤ n
  text : s = n.toInt.repr.toList ++ behind
  digits : n ≠ 0 → Stops (fun a => a.isDigit = true) behind
  marks : Stops (· ∈ ['.', 'e', 'E']) behind
  bases : n = 0 → Stops (· ∈ ['x', 'o', 'b']) behind

/-- An integer that is not negative is a natural number in range. -/
theorem exists_ofNat_eq {n : Int64} (h : 0 ≤ n) :
    ∃ m : Nat, m ≤ 9223372036854775807 ∧ n = Int64.ofNat m ∧ n.toInt = m := by
  obtain ⟨m, hm⟩ := Int.eq_ofNat_of_zero_le (Int64.le_iff_toInt_le.mp h)
  have hlt : n.toInt < 2 ^ 63 := n.toInt_lt
  refine ⟨m, by omega, ?_, hm⟩
  rw [← Int64.ofInt_eq_ofNat, ← hm, Int64.ofInt_toInt]

theorem toInt_ofNat_of_le {m : Nat} (h : m ≤ 9223372036854775807) :
    (Int64.ofNat m).toInt = m :=
  Int64.toInt_ofNat_of_lt (Nat.lt_succ_of_le h)

/-- The digits of a number in range are a numeral where nothing goes on behind them. -/
theorem numeral_toDigits {m : Nat} (hm : m ≤ 9223372036854775807)
    (hdigits : m ≠ 0 → Stops (fun a => a.isDigit = true) behind)
    (hmarks : Stops (· ∈ ['.', 'e', 'E']) behind)
    (hbases : m = 0 → Stops (· ∈ ['x', 'o', 'b']) behind) :
    Numeral (Nat.toDigits 10 m) behind := by
  rcases Nat.eq_zero_or_pos m with rfl | hpos
  · refine .zero fun a ha hmem => ?_
    rcases List.mem_append.mp (show a ∈ ['.', 'e', 'E'] ++ ['x', 'o', 'b'] from hmem) with h | h
    · exact hmarks a ha h
    · exact hbases rfl a ha h
  · have hall : ∀ a ∈ Nat.toDigits 10 m, a.isDigit = true := fun a ha =>
      Nat.isDigit_of_mem_toDigits (by decide) (by decide) ha
    have hvalue : Nat.ofDigitChars 10 (Nat.toDigits 10 m) 0 ≤ 9223372036854775807 := by
      rw [Nat.ofDigitChars_ten_toDigits]
      exact hm
    obtain ⟨first, others, heq, hne⟩ := toDigits_eq_cons hpos
    rw [heq] at hall hvalue ⊢
    rw [List.forall_mem_cons] at hall
    refine .positive hall.1 hne hall.2 hvalue fun a ha hclass => ?_
    exact hclass.elim (hdigits (by omega) a ha) (hmarks a ha)

/-- **The digits of a number in the grammar are its decimal text.** -/
theorem decimal_iff {n : Int64} :
    Decimal n s behind ↔ ∃ digits, n = Int64.ofNat (Nat.ofDigitChars 10 digits 0) ∧
      s = digits ++ behind ∧ Numeral digits behind := by
  constructor
  · rintro ⟨hn, htext, hdigits, hmarks, hbases⟩
    obtain ⟨m, hle, rfl, hm⟩ := exists_ofNat_eq hn
    have hzero : Int64.ofNat m = 0 ↔ m = 0 := by
      rw [← Int64.toInt_inj, hm]
      exact Int.natCast_eq_zero
    rw [hm, show (m : Int).repr.toList = Nat.toDigits 10 m from Nat.toList_repr] at htext
    refine ⟨_, by rw [Nat.ofDigitChars_ten_toDigits], htext, ?_⟩
    exact numeral_toDigits hle (fun h => hdigits (mt hzero.mp h)) hmarks fun h =>
      hbases (hzero.mpr h)
  · rintro ⟨digits, rfl, rfl, h⟩
    cases h with
    | zero h =>
      refine ⟨by decide, rfl, fun hne => absurd rfl hne, h.mono fun a ha => ?_, fun _ =>
        h.mono fun a ha => ?_⟩
      · exact List.mem_append_left ['x', 'o', 'b'] ha
      · exact List.mem_append_right ['.', 'e', 'E'] ha
    | @positive first others _ hfirst hne hothers hle h =>
      have hdigits := toDigits_ofDigitChars hfirst hne hothers
      have hvalue := toInt_ofNat_of_le hle
      generalize Nat.ofDigitChars 10 (first :: others) 0 = m at hdigits hvalue hle
      have hpos : Int64.ofNat m ≠ 0 := by
        intro hzero
        rw [hzero] at hvalue
        obtain rfl : m = 0 := Int.natCast_eq_zero.mp hvalue.symm
        exact hne (List.cons.inj hdigits).1.symm
      refine ⟨?_, ?_, fun _ => h.mono fun a => Or.inl, h.mono fun a => Or.inr, fun hzero =>
        absurd hzero hpos⟩
      · rw [Int64.le_iff_toInt_le, hvalue]
        exact Int.natCast_nonneg m
      · rw [hvalue, ← hdigits]
        exact congrArg (· ++ behind) Nat.toList_repr.symm

/-! ## The reader of integers -/

/-- An integer is read where its decimal text starts, and no more than the text is taken. -/
theorem yields_int_iff_decimal {c stop : Cursor} {n : Int64} :
    Parser.int.Yields c n stop ↔ ∃ behind, Decimal n c.rest behind ∧
      stop = ⟨c.position.after n.toInt.repr.toList, behind⟩ := by
  rw [← Parser.yields_backtrackable_iff, yields_literal_iff]
  constructor
  · rintro ⟨digits, hn, ⟨⟨behind, hs⟩, hnum⟩, rfl⟩
    rw [← hs, List.drop_left] at hnum
    have hd : Decimal n c.rest behind := decimal_iff.mpr ⟨digits, hn, hs.symm, hnum⟩
    have htext : digits = n.toInt.repr.toList := List.append_cancel_right (hs.trans hd.text)
    refine ⟨behind, hd, ?_⟩
    rw [Cursor.advanceBy, ← hs, List.take_left, List.drop_left, htext]
  · rintro ⟨behind, hd, rfl⟩
    obtain ⟨digits, hn, hs, hnum⟩ := decimal_iff.mp hd
    have htext : digits = n.toInt.repr.toList := List.append_cancel_right (hs.symm.trans hd.text)
    refine ⟨digits, hn, ?_, ?_⟩
    · rw [hs]
      exact begins_append_iff.mpr hnum
    · rw [Cursor.advanceBy, hs, List.take_left, List.drop_left, htext]

/--
**Reading an integer undoes decimal notation.** The integer `n` is read exactly where its decimal
text starts, and just that text is taken. Everywhere else the reader fails without moving, with one
dead end, and reports progress exactly if a digit is first.
-/
theorem int_inverts_decimal_text (c : Cursor) :
    (∀ progress n stop, Parser.int c = some ⟨.good progress n, stop⟩ ↔
      progress = true ∧ ∃ behind, Decimal n c.rest behind ∧
        stop = ⟨c.position.after n.toInt.repr.toList, behind⟩) ∧
    ((¬∃ n behind, Decimal n c.rest behind) →
      Parser.int c =
        some ⟨.bad (c.rest.head?.any Char.isDigit) [c.deadEnd .expectingInt], c⟩) := by
  constructor
  · intro progress n stop
    rw [← yields_int_iff_decimal]
    constructor
    · intro h
      exact ⟨Parser.progressive_int.progress_eq h, progress, h⟩
    · rintro ⟨rfl, progress', h⟩
      rwa [Parser.progressive_int.progress_eq h] at h
  · intro hnone
    rcases Parser.int_cases c with ⟨n, stop, hgood⟩ | hbad
    · obtain ⟨behind, hd, -⟩ := yields_int_iff_decimal.mp ⟨true, hgood⟩
      exact absurd ⟨n, behind, hd⟩ hnone
    · exact hbad

/-- The greatest integer is read, and the next number is not. -/
theorem int_inverts_decimal_text_limits :
    Parser.int (.start "9223372036854775807)") =
      some ⟨.good true 9223372036854775807, ⟨⟨19, 1, 20⟩, [')']⟩⟩ ∧
    Parser.int (.start "9223372036854775808") =
      some ⟨.bad true [⟨1, 1, .expectingInt⟩], .start "9223372036854775808"⟩ := by
  constructor
  · refine ((int_inverts_decimal_text _).1 true 9223372036854775807 _).mpr ⟨rfl, [')'], ?_, rfl⟩
    exact ⟨by decide, by decide +kernel, fun _ => by decide, by decide, fun h =>
      absurd h (by decide)⟩
  · refine (int_inverts_decimal_text (.start "9223372036854775808")).2 ?_
    rintro ⟨n, behind, hd⟩
    obtain ⟨progress, hgood⟩ := yields_int_iff_decimal.mpr ⟨behind, hd, rfl⟩
    have hbad : Parser.int (.start "9223372036854775808") =
        some ⟨.bad true [⟨1, 1, .expectingInt⟩], .start "9223372036854775808"⟩ := by
      decide +kernel
    rw [hgood] at hbad
    cases hbad

end TypedLambda.Derivation
