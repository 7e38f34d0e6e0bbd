import TypedLambda.Expr.Grammar
import TypedLambda.Proofs.Grammar.Derivation
import TypedLambda.Proofs.Parser.Tokens

/-!
# Tokens that are read and tokens that are derived

Each rule of a token reads the tokens of its kind and no others (`Scans`). The rule of a word looks
less far than the grammar does: it takes a word that a prime follows. As no phrase starts with a
prime, that difference never shows in a text read to its end, so the rules are compared where no
prime follows.
-/

namespace TypedLambda.Derivation

variable {s s₁ rest chars : List Char} {MayFollow : List Char → Prop} {P Q : Char → Prop}

/-! ## Where a class of characters stops -/

instance : DecidablePred Blank := fun a =>
  inferInstanceAs (Decidable (a = ' ' ∨ a = '\n' ∨ a = '\r'))

instance : DecidablePred NameChar := fun a =>
  inferInstanceAs (Decidable (a.isAlphanum = true ∨ a = '_' ∨ a = '\x27'))

theorem stops_nil : Stops P [] := fun _ h => by cases h

theorem stops_cons_iff {a : Char} : Stops P (a :: s) ↔ ¬P a := by
  simp [Stops]

instance [DecidablePred P] : (s : List Char) → Decidable (Stops P s)
  | [] => isTrue stops_nil
  | a :: _ => decidable_of_iff (¬P a) stops_cons_iff.symm

theorem Stops.mono (h : Stops Q s) (hPQ : ∀ a, P a → Q a) : Stops P s :=
  fun a ha hp => h a ha (hPQ a hp)

theorem stops_iff_any {p : Char → Bool} :
    Stops (fun a => p a = true) s ↔ s.head?.any p = false := by
  cases s <;> simp [Stops]

theorem stops_dropWhile (p : Char → Bool) (s : List Char) :
    Stops (fun a => p a = true) (s.dropWhile p) := by
  intro a ha
  have hnot := List.head?_dropWhile_not p s
  rw [Option.mem_def.mp ha] at hnot
  simpa using hnot

/-- A run of characters of a class in front of a text where the class stops. -/
theorem takeWhile_append {p : Char → Bool} {run behind : List Char} (hrun : ∀ a ∈ run, p a = true)
    (h : Stops (fun a => p a = true) behind) : (run ++ behind).takeWhile p = run := by
  rw [List.takeWhile_append_of_pos hrun]
  cases behind with
  | nil => simp
  | cons a behind => rw [List.takeWhile_cons_of_neg (stops_cons_iff.mp h), List.append_nil]

theorem dropWhile_append {p : Char → Bool} {run behind : List Char} (hrun : ∀ a ∈ run, p a = true)
    (h : Stops (fun a => p a = true) behind) : (run ++ behind).dropWhile p = behind := by
  rw [List.dropWhile_append_of_pos hrun]
  cases behind with
  | nil => rfl
  | cons a behind => exact List.dropWhile_cons_of_neg (stops_cons_iff.mp h)

/-! ## Layout -/

/-- What the lexer skips is what the grammar calls blank. -/
theorem isLayout_iff {a : Char} : isLayout a = true ↔ Blank a := by
  simp [isLayout, Blank, or_assoc]

theorem gap_self : Gap s s := ⟨[], rfl, by simp⟩

theorem gap_space : Gap (' ' :: s) s := ⟨[' '], rfl, by simp [Blank]⟩

theorem Gap.trans (h : Gap s s₁) (h' : Gap s₁ rest) : Gap s rest := by
  obtain ⟨blanks, rfl, hblanks⟩ := h
  obtain ⟨more, rfl, hmore⟩ := h'
  exact ⟨blanks ++ more, (List.append_assoc ..).symm, List.forall_mem_append.mpr ⟨hblanks, hmore⟩⟩

/-- The layout in front of a text that starts otherwise is all layout there is. -/
theorem gap_iff : Gap s rest ∧ Stops Blank rest ↔ s.dropWhile isLayout = rest := by
  constructor
  · rintro ⟨⟨blanks, rfl, hblanks⟩, hstop⟩
    exact dropWhile_append (fun a ha => isLayout_iff.mpr (hblanks a ha))
      (hstop.mono fun a => isLayout_iff.mp)
  · rintro rfl
    refine ⟨⟨s.takeWhile isLayout, List.takeWhile_append_dropWhile.symm, fun a ha => ?_⟩,
      (stops_dropWhile isLayout s).mono fun a => isLayout_iff.mpr⟩
    exact isLayout_iff.mp (List.all_eq_true.mp List.all_takeWhile a ha)

/-- What does not start behind layout does not start before it, unless it is layout. -/
theorem Gap.stops (hg : Gap s rest) (hP : ∀ a, P a → ¬Blank a) (h : Stops P rest) : Stops P s := by
  obtain ⟨blanks, rfl, hblanks⟩ := hg
  cases blanks with
  | nil => exact h
  | cons a blanks => exact stops_cons_iff.mpr fun ha => hP a ha (hblanks a List.mem_cons_self)

theorem Gap.length_le (hg : Gap s rest) : rest.length ≤ s.length := by
  obtain ⟨blanks, rfl, -⟩ := hg
  rw [List.length_append]
  omega

theorem Gap.cons_cases {a : Char} (h : Gap (a :: s) rest) :
    rest = a :: s ∨ Blank a ∧ Gap s rest := by
  obtain ⟨blanks, heq, hblanks⟩ := h
  cases blanks with
  | nil => exact Or.inl heq.symm
  | cons b blanks =>
    cases heq
    rw [List.forall_mem_cons] at hblanks
    exact Or.inr ⟨hblanks.1, blanks, rfl, hblanks.2⟩

/-- Skipping layout twice is skipping it once. -/
theorem Gap.dropWhile_eq (h : Gap s rest) : s.dropWhile isLayout = rest.dropWhile isLayout := by
  obtain ⟨blanks, rfl, hblanks⟩ := h
  exact List.dropWhile_append_of_pos fun a ha => isLayout_iff.mpr (hblanks a ha)

theorem skipLayout_of_stops {c : Cursor} (h : Stops Blank c.rest) : c.skipLayout = c := by
  have hnone : ([] ++ c.rest).takeWhile isLayout = [] :=
    takeWhile_append (by simp) (h.mono fun a => isLayout_iff.mp)
  rw [List.nil_append] at hnone
  rw [Cursor.skipLayout, hnone]
  exact Cursor.advanceBy_zero c

/-! ## Tokens -/

/-- The mark that ends some names; no phrase starts with it. -/
def Prime (a : Char) : Prop := a = '\x27'

instance : DecidablePred Prime := fun a => inferInstanceAs (Decidable (a = '\x27'))

/-- A text from which something is read: neither layout nor a prime is first, and less is left. -/
structure Advances (s rest : List Char) : Prop where
  blank : Stops Blank s
  prime : Stops Prime s
  length_lt : rest.length < s.length

theorem Advances.trans (h : Advances s s₁) (h' : Advances s₁ rest) : Advances s rest :=
  ⟨h.blank, h.prime, Nat.lt_trans h'.length_lt h.length_lt⟩

/-- The characters of a token from which the text advances. -/
structure Visible (chars : List Char) : Prop where
  ne_nil : chars ≠ []
  blank : Stops Blank chars
  prime : Stops Prime chars

instance : Decidable (Visible chars) :=
  decidable_of_iff (chars ≠ [] ∧ Stops Blank chars ∧ Stops Prime chars)
    ⟨fun h => ⟨h.1, h.2.1, h.2.2⟩, fun h => ⟨h.1, h.2, h.3⟩⟩

theorem visible_text (op : Op) : Visible op.text.toList := by
  cases op <;> decide

/-- A class of characters without layout and primes makes what starts with it visible. -/
theorem visible_cons {a : Char} {p : Char → Bool} (ha : p a = true)
    (hp : ([' ', '\n', '\r', '\x27'].any p) = false) : Visible (a :: chars) := by
  have hne : ∀ b ∈ [' ', '\n', '\r', '\x27'], a ≠ b := by
    rintro b hb rfl
    exact List.any_eq_false.mp hp a hb ha
  simp only [List.forall_mem_cons, List.not_mem_nil, false_imp_iff, implies_true, and_true] at hne
  refine ⟨List.cons_ne_nil _ _, stops_cons_iff.mpr ?_, stops_cons_iff.mpr hne.2.2.2⟩
  rintro (h | h | h)
  · exact hne.1 h
  · exact hne.2.1 h
  · exact hne.2.2.1 h

/-- A token whose characters are visible reads something. -/
theorem Token.advances (h : Token chars MayFollow s rest) (hv : Visible chars := by decide) :
    Advances s rest := by
  obtain ⟨behind, rfl, -, hg⟩ := h
  obtain ⟨hne, hb, hp⟩ := hv
  obtain ⟨a, chars, rfl⟩ := List.exists_cons_of_ne_nil hne
  have hlen := hg.length_le
  refine ⟨stops_cons_iff.mpr (stops_cons_iff.mp hb), stops_cons_iff.mpr (stops_cons_iff.mp hp), ?_⟩
  rw [List.length_append, List.length_cons]
  omega

/-- Some characters start a text, and what is behind them may follow them. -/
def Begins (chars : List Char) (MayFollow : List Char → Prop) (s : List Char) : Prop :=
  chars <+: s ∧ MayFollow (s.drop chars.length)

theorem begins_append_iff {behind : List Char} :
    Begins chars MayFollow (chars ++ behind) ↔ MayFollow behind := by
  rw [Begins, List.drop_left]
  exact and_iff_right (List.prefix_append chars behind)

theorem Token.begins (h : Token chars MayFollow s rest) : Begins chars MayFollow s := by
  obtain ⟨behind, rfl, hf, -⟩ := h
  exact begins_append_iff.mpr hf

/-- A token in the text of a cursor, with all layout behind it. -/
theorem token_iff {c : Cursor} :
    Token chars MayFollow c.rest rest ∧ Stops Blank rest ↔
      Begins chars MayFollow c.rest ∧ (c.advanceBy chars.length).skipLayout.rest = rest := by
  rw [Cursor.rest_skipLayout, Cursor.rest_advanceBy, ← gap_iff]
  constructor
  · rintro ⟨⟨behind, hs, hf, hg⟩, hb⟩
    rw [hs, begins_append_iff, List.drop_left]
    exact ⟨hf, hg, hb⟩
  · rintro ⟨⟨⟨behind, hs⟩, hf⟩, hg, hb⟩
    rw [← hs, List.drop_left] at hf hg
    exact ⟨⟨behind, hs.symm, hf, hg⟩, hb⟩

/-- A parser succeeds with a value where a text is left. -/
abbrev Leaves {α : Type} (p : Parser α) (c : Cursor) (value : α) (rest : List Char) : Prop :=
  ∃ stop, p.Yields c value stop ∧ stop.rest = rest

/-- A parser reads what a relation on texts derives, where no prime follows. -/
structure Scans {α : Type} (p : Parser α) (T : α → List Char → List Char → Prop) : Prop where
  sound : ∀ {c stop : Cursor} {value : α}, p.Yields c value stop →
    Stops Blank stop.rest ∧ (Stops Prime stop.rest → T value c.rest stop.rest)
  complete : ∀ {c : Cursor} {rest : List Char} {value : α}, T value c.rest rest →
    Stops Blank rest → Leaves p c value rest

section

variable {call : {α : Type} → Phrase α → Parser α}

theorem scans_sign (text : String) :
    Scans ((Phrase.sign text).denote call) fun _ => Sign text := by
  constructor
  · intro c stop value h
    obtain ⟨hp, rfl⟩ := Rule.yields_sign_iff.mp h
    rw [← String.length_toList]
    have htoken : Sign text c.rest _ ∧ Stops Blank _ := token_iff.mpr ⟨⟨hp, trivial⟩, rfl⟩
    exact ⟨htoken.2, fun _ => htoken.1⟩
  · intro c rest value h hb
    obtain ⟨⟨hp, -⟩, hrest⟩ := token_iff.mp ⟨h, hb⟩
    rw [String.length_toList] at hrest
    exact ⟨_, Rule.yields_sign_iff.mpr ⟨hp, rfl⟩, hrest⟩

/-- A word is read where it is not followed by a letter, a digit or an underscore. -/
def Leads (text : String) : List Char → Prop :=
  Begins text.toList (Stops fun a => isWordChar a = true)

theorem yields_keyword_iff {text : String} {u : Unit} {c stop : Cursor} :
    (Parser.keyword text).Yields c u stop ↔
      Leads text c.rest ∧ c.advanceBy text.toList.length = stop := by
  refine Parser.yields_token_iff.trans ?_
  rw [← String.length_toList, Leads, Begins, stops_iff_any, and_assoc]

theorem passes_keyword_iff {text : String} {c : Cursor} :
    (Parser.keyword text).Passes c ↔ ¬Leads text c.rest := by
  refine Parser.passes_token_iff.trans ?_
  rw [← String.length_toList, Leads, Begins, stops_iff_any]

theorem Word.leads {text : String} (h : Word text s rest) : Leads text s := by
  obtain ⟨hp, hf⟩ := h.begins
  refine ⟨hp, hf.mono fun a ha => ?_⟩
  rw [isWordChar, Bool.or_eq_true, beq_iff_eq] at ha
  exact ha.imp_right Or.inl

/-- The rule looks at all characters of names but the prime, and where none follows that is all. -/
theorem word_of_token {text : String} {WordChar : Char → Prop}
    (h : Token text.toList (Stops WordChar) s rest)
    (hword : ∀ a, NameChar a → WordChar a ∨ Prime a) (hprime : Stops Prime rest) :
    Word text s rest := by
  obtain ⟨behind, hs, hf, hg⟩ := h
  have hbehind : Stops Prime behind := hg.stops (by rintro a rfl; decide) hprime
  exact ⟨behind, hs, fun a ha hname => (hword a hname).elim (hf a ha) (hbehind a ha), hg⟩

/-- Words are scanned as the grammar has them, but for a prime that follows. -/
theorem scans_word (text : String) :
    Scans ((Phrase.word text).denote call) fun _ => Word text := by
  constructor
  · intro c stop value h
    obtain ⟨mid, hk, rfl⟩ := Rule.yields_spaced_iff.mp h
    obtain ⟨hl, rfl⟩ := yields_keyword_iff.mp hk
    obtain ⟨htoken, hb⟩ := token_iff.mpr ⟨hl, rfl⟩
    refine ⟨hb, word_of_token htoken fun a hname => ?_⟩
    rcases hname with hname | rfl | rfl
    · exact Or.inl (by simp [isWordChar, hname])
    · exact Or.inl (by decide)
    · exact Or.inr rfl
  · intro c rest value h hb
    obtain ⟨-, hrest⟩ := token_iff.mp ⟨h, hb⟩
    exact ⟨_, Rule.yields_spaced_iff.mpr
      ⟨_, yields_keyword_iff.mpr ⟨Word.leads h, rfl⟩, rfl⟩, hrest⟩

theorem leaves_sign {text : String} {c : Cursor} (h : Sign text c.rest rest)
    (hb : Stops Blank rest) : Leaves ((Phrase.sign text).denote call) c () rest :=
  (scans_sign text).complete h hb

theorem leaves_word {text : String} {c : Cursor} (h : Word text c.rest rest)
    (hb : Stops Blank rest) : Leaves ((Phrase.word text).denote call) c () rest :=
  (scans_word text).complete h hb

/-! ## Identifiers -/

theorem inner_iff {a : Char} : Phrase.identifierRules.inner a = true ↔ NameChar a := by
  simp [Phrase.identifierRules, NameChar, or_assoc]

theorem yields_identifier_iff {name : String} {c stop : Cursor} :
    (Parser.name Phrase.identifierRules).Yields c name stop ↔
      IsIdentifier name ∧ Begins name.toList (Stops NameChar) c.rest ∧
        c.advanceBy name.toList.length = stop := by
  rw [Parser.yields_name_iff, String.length_toList]
  constructor
  · rintro ⟨first, others, hrest, hstart, hname, hres, rfl⟩
    have hsplit : c.rest = name.toList ++ others.dropWhile Phrase.identifierRules.inner := by
      rw [hname, hrest, List.cons_append, List.takeWhile_append_dropWhile]
    refine ⟨⟨⟨first, _, hname, hstart, fun a ha => ?_⟩, hres⟩, ?_, rfl⟩
    · exact inner_iff.mp (List.all_eq_true.mp List.all_takeWhile a ha)
    · rw [hsplit, begins_append_iff]
      exact (stops_dropWhile _ others).mono fun a => inner_iff.mpr
  · rintro ⟨⟨⟨first, others, hname, hstart, hothers⟩, hres⟩, ⟨⟨behind, hsplit⟩, hf⟩, rfl⟩
    rw [← hsplit, List.drop_left] at hf
    refine ⟨first, others ++ behind, ?_, hstart, ?_, hres, rfl⟩
    · rw [← hsplit, hname, List.cons_append]
    · rw [hname, takeWhile_append (fun a ha => inner_iff.mpr (hothers a ha))
        (hf.mono fun a => inner_iff.mp)]

theorem scans_identifier : Scans (Phrase.identifier.denote call) Identifier := by
  constructor
  · intro c stop name h
    obtain ⟨mid, hn, rfl⟩ := Rule.yields_spaced_iff.mp h
    obtain ⟨hid, hbegins, rfl⟩ := yields_identifier_iff.mp hn
    obtain ⟨hw, hb⟩ := token_iff.mpr ⟨hbegins, rfl⟩
    exact ⟨hb, fun _ => ⟨hid, hw⟩⟩
  · rintro c rest name ⟨hid, hw⟩ hb
    obtain ⟨hbegins, hrest⟩ := token_iff.mp ⟨hw, hb⟩
    exact ⟨_, Rule.yields_spaced_iff.mpr
      ⟨_, yields_identifier_iff.mpr ⟨hid, hbegins, rfl⟩, rfl⟩, hrest⟩

end

/-! ## Numbers -/

/-- A literal is spoiled by the mark of a fraction, an exponent or another base. -/
theorem spoilsLiteral_eq_false_iff {digits behind : List Char} :
    spoilsLiteral digits behind.head? = false ↔
      Stops (fun a => a ∈ ['.', 'e', 'E'] ∨ digits = ['0'] ∧ a ∈ ['x', 'o', 'b']) behind := by
  cases behind with
  | nil => exact ⟨fun _ => stops_nil, fun _ => rfl⟩
  | cons a behind =>
    rw [stops_cons_iff, List.head?_cons, spoilsLiteral, ← Bool.not_eq_true, not_congr]
    simp [or_assoc]

/-- The digits of a literal are a lone zero or all digits there are. -/
theorem literalDigits_cases {digits : List Char} (h : literalDigits s = digits)
    (hne : digits ≠ []) :
    digits = ['0'] ∧ (∃ behind, s = '0' :: behind) ∨
      ∃ first others, digits = first :: others ∧ first ≠ '0' ∧
        (∀ a ∈ digits, a.isDigit = true) ∧ s = digits ++ s.dropWhile Char.isDigit := by
  have hsplit := List.takeWhile_append_dropWhile (p := Char.isDigit) (l := s)
  unfold literalDigits at h
  split at h
  · next tail htake =>
    rw [htake, List.cons_append] at hsplit
    exact Or.inl ⟨h.symm, _, hsplit.symm⟩
  · next hzero =>
    obtain ⟨first, others, rfl⟩ := List.exists_cons_of_ne_nil hne
    rw [h] at hsplit hzero
    refine Or.inr ⟨first, others, rfl, ?_, fun a ha => ?_, hsplit.symm⟩
    · rintro rfl
      exact hzero others rfl
    · rw [← h] at ha
      exact List.all_eq_true.mp List.all_takeWhile a ha

/-- The lexer takes the digits of a numeral and no more. -/
theorem literalDigits_of_numeral {digits behind : List Char} (h : Numeral digits behind) :
    literalDigits (digits ++ behind) = digits := by
  cases h with
  | zero h =>
    have htake : (['0'] ++ behind).takeWhile Char.isDigit = '0' :: behind.takeWhile Char.isDigit :=
      List.takeWhile_cons_of_pos rfl
    rw [literalDigits, htake]
    rfl
  | @positive first others _ hfirst hne hothers hle h =>
    have htake : (first :: others ++ behind).takeWhile Char.isDigit = first :: others :=
      takeWhile_append (List.forall_mem_cons.mpr ⟨hfirst, hothers⟩) (h.mono fun a => Or.inl)
    rw [literalDigits, htake]
    split
    · next tail heq => exact absurd (List.cons.inj heq).1 hne
    · rfl

/-- The digits that a literal is read from are those of a number. -/
theorem numeral_iff {digits : List Char} :
    (literalDigits s = digits ∧ digits ≠ [] ∧ Nat.ofDigitChars 10 digits 0 ≤ greatestInt ∧
        spoilsLiteral digits (s.drop digits.length).head? = false) ↔
      Begins digits (Numeral digits) s := by
  constructor
  · rintro ⟨hdigits, hne, hle, hspoils⟩
    rw [spoilsLiteral_eq_false_iff] at hspoils
    rcases literalDigits_cases hdigits hne with
      ⟨rfl, behind, rfl⟩ | ⟨first, others, rfl, hzero, hall, hs⟩
    · refine ⟨⟨behind, rfl⟩, .zero (hspoils.mono fun a ha => ?_)⟩
      simpa [or_assoc] using ha
    · -- All digits are taken, so no digit follows.
      have hdrop : s.drop (first :: others).length = s.dropWhile Char.isDigit := by
        calc s.drop (first :: others).length
            = (first :: others ++ s.dropWhile Char.isDigit).drop (first :: others).length := by
              rw [← hs]
          _ = s.dropWhile Char.isDigit := List.drop_left
      rw [List.forall_mem_cons] at hall
      refine ⟨⟨_, hs.symm⟩, .positive hall.1 hzero hall.2 hle ?_⟩
      intro a ha hclass
      rcases hclass with hdigit | hmark
      · rw [hdrop] at ha
        exact stops_dropWhile Char.isDigit s a ha hdigit
      · exact hspoils a ha (Or.inl hmark)
  · rintro ⟨⟨behind, rfl⟩, hn⟩
    rw [List.drop_left] at hn ⊢
    refine ⟨literalDigits_of_numeral hn, ?_⟩
    rw [spoilsLiteral_eq_false_iff]
    cases hn with
    | zero h =>
      refine ⟨by simp, by decide, h.mono fun a ha => ?_⟩
      simpa [or_assoc] using ha
    | positive hfirst hne hothers hle h =>
      refine ⟨by simp, hle, h.mono ?_⟩
      rintro a (ha | ⟨hzero, -⟩)
      · exact Or.inr ha
      · exact absurd (List.cons.inj hzero).1 hne

/-- A literal is read where a numeral begins, with the value of its digits. -/
theorem yields_literal_iff {n : Int64} {c stop : Cursor} :
    Parser.int.backtrackable.Yields c n stop ↔
      ∃ digits, n = Int64.ofNat (Nat.ofDigitChars 10 digits 0) ∧
        Begins digits (Numeral digits) c.rest ∧ c.advanceBy digits.length = stop := by
  rw [Parser.yields_backtrackable_iff, Parser.yields_int_iff]
  constructor
  · rintro ⟨digits, hdigits, hne, hle, hspoils, hn, hstop⟩
    exact ⟨digits, hn.symm, numeral_iff.mp ⟨hdigits, hne, hle, hspoils⟩, hstop⟩
  · rintro ⟨digits, hn, hbegins, hstop⟩
    obtain ⟨hdigits, hne, hle, hspoils⟩ := numeral_iff.mpr hbegins
    exact ⟨digits, hdigits, hne, hle, hspoils, hn.symm, hstop⟩

theorem scans_number {call : {α : Type} → Phrase α → Parser α} :
    Scans (Rule.int.backtrackable.spaced.denote call) Number := by
  constructor
  · intro c stop n h
    obtain ⟨mid, hint, rfl⟩ := Rule.yields_spaced_iff.mp h
    obtain ⟨digits, hn, hbegins, rfl⟩ := yields_literal_iff.mp hint
    obtain ⟨htoken, hb⟩ := token_iff.mpr ⟨hbegins, rfl⟩
    exact ⟨hb, fun _ => ⟨digits, hn, htoken⟩⟩
  · rintro c rest n ⟨digits, hn, htoken⟩ hb
    obtain ⟨hbegins, hrest⟩ := token_iff.mp ⟨htoken, hb⟩
    exact ⟨_, Rule.yields_spaced_iff.mpr
      ⟨_, yields_literal_iff.mpr ⟨digits, hn, hbegins, rfl⟩, rfl⟩, hrest⟩

/-! ## Phrases advance -/

theorem Identifier.advances {name : String} (h : Identifier name s rest) : Advances s rest := by
  obtain ⟨⟨⟨first, others, hname, hlower, -⟩, -⟩, hw⟩ := h
  refine hw.advances ?_
  rw [hname]
  exact visible_cons hlower (by decide)

theorem Numeral.head_isDigit {digits behind : List Char} (h : Numeral digits behind) :
    ∃ first others, digits = first :: others ∧ first.isDigit = true := by
  cases h with
  | zero h => exact ⟨'0', [], rfl, rfl⟩
  | positive hfirst => exact ⟨_, _, rfl, hfirst⟩

theorem Number.advances {n : Int64} (h : Number n s rest) : Advances s rest := by
  obtain ⟨digits, -, behind, hs, hnum, hg⟩ := h
  obtain ⟨first, others, rfl, hdigit⟩ := hnum.head_isDigit
  exact Token.advances ⟨behind, hs, hnum, hg⟩ (visible_cons hdigit (by decide))

theorem DerivesType.advances {atomic : Bool} {type : Ty} (h : DerivesType atomic s type rest) :
    Advances s rest := by
  induction h with
  | int h => exact h.advances
  | bool h => exact h.advances
  | parens ho _ hc ih =>
    exact ho.advances.trans (ih.trans hc.advances)
  | atom _ ih => exact ih
  | arrow _ ha _ ihs iht =>
    exact ihs.trans (ha.advances.trans iht)

/-- Every expression reads something. -/
theorem Derives.advances {category : Category} {ending : Ending} {e : Expr}
    (h : Derives category ending s e rest) : Advances s rest := by
  induction h with
  | parens ho _ hc ih =>
    exact ho.advances.trans (ih.trans hc.advances)
  | yes h | no h => exact h.advances
  | number h => exact h.advances
  | var h => exact h.advances
  | ite hi _ ht _ he _ ihc ihy ihn =>
    exact hi.advances.trans (ihc.trans (ht.advances.trans
      (ihy.trans (he.advances.trans ihn))))
  | lam hl hp hc ht hd _ ih =>
    exact hl.advances.trans (hp.advances.trans (hc.advances.trans
      (ht.advances.trans (hd.advances.trans ih))))
  | single _ ih => exact ih
  | apply _ _ ihf iha => exact ihf.trans iha
  | operand _ ih => exact ih
  | join _ _ ho _ ihl ihr => exact ihl.trans ((ho.advances (visible_text _)).trans ihr)

end TypedLambda.Derivation
