import TypedLambda.Proofs.Parser.Outcome

/-!
# Outcomes of tokens

When fixed texts, names, integers and the end of the text are read, and what is left after them. A
token and the layout behind it are read by one rule, `Rule.spaced`, which stops at the first
character that is no layout.
-/

namespace TypedLambda

/-- The cursor behind the layout that starts here. -/
def Cursor.skipLayout (c : Cursor) : Cursor := c.advanceBy (c.rest.takeWhile isLayout).length

namespace Cursor

variable (c : Cursor)

@[simp] theorem rest_advanceBy (count : Nat) : (c.advanceBy count).rest = c.rest.drop count := rfl

@[simp] theorem rest_skipLayout : c.skipLayout.rest = c.rest.dropWhile isLayout := by
  calc c.rest.drop (c.rest.takeWhile isLayout).length
      = (c.rest.takeWhile isLayout ++ c.rest.dropWhile isLayout).drop
          (c.rest.takeWhile isLayout).length := by rw [List.takeWhile_append_dropWhile]
    _ = c.rest.dropWhile isLayout := List.drop_left

end Cursor

namespace Parser

variable {c stop : Cursor}

/-! ## Fixed texts -/

/-- A token is read where its text starts and what follows does not spoil it. -/
theorem yields_token_iff {text : String} {problem : Problem} {runsOn : Char → Bool} {u : Unit} :
    (token text problem runsOn).Yields c u stop ↔
      text.toList <+: c.rest ∧ (c.rest.drop text.length).head?.any runsOn = false ∧
        c.advanceBy text.length = stop := by
  unfold Yields Gives token
  constructor
  · rintro ⟨progress, h⟩
    split at h
    · next hc =>
      rw [Bool.and_eq_true, List.isPrefixOf_iff_prefix, Bool.not_eq_true'] at hc
      cases h
      exact ⟨hc.1, hc.2, rfl⟩
    · cases h
  · rintro ⟨hp, hr, rfl⟩
    refine ⟨!text.isEmpty, if_pos ?_⟩
    rw [Bool.and_eq_true, List.isPrefixOf_iff_prefix, Bool.not_eq_true']
    exact ⟨hp, hr⟩

theorem passes_token_iff {text : String} {problem : Problem} {runsOn : Char → Bool} :
    (token text problem runsOn).Passes c ↔
      ¬(text.toList <+: c.rest ∧ (c.rest.drop text.length).head?.any runsOn = false) := by
  constructor
  · rintro h ⟨hp, hr⟩
    exact (yields_token_iff.mpr ⟨hp, hr, rfl⟩ : Yields _ c () _).not_passes h
  · intro h
    refine ⟨_, _, if_neg ?_⟩
    rw [Bool.and_eq_true, List.isPrefixOf_iff_prefix, Bool.not_eq_true']
    exact h

theorem progressive_token {text : String} (hne : text ≠ "") (problem : Problem)
    (runsOn : Char → Bool) : (token text problem runsOn).Progressive := by
  intro c value stop h
  unfold token at h
  split at h
  · have : text.isEmpty = false := by simpa using hne
    simp [this] at h
  · cases h

/-! ## Layout and the end -/

theorem yields_chompWhile_iff {inClass : Char → Bool} {u : Unit} :
    (chompWhile inClass).Yields c u stop ↔
      c.advanceBy (c.rest.takeWhile inClass).length = stop := by
  constructor
  · rintro ⟨progress, h⟩
    cases h
    rfl
  · rintro rfl
    exact ⟨_, rfl⟩

theorem yields_endOfInput_iff {u : Unit} :
    endOfInput.Yields c u stop ↔ c.rest = [] ∧ c = stop := by
  unfold Yields Gives endOfInput Cursor.hasNext
  constructor
  · rintro ⟨progress, h⟩
    split at h
    · cases h
    · next hrest =>
      cases h
      exact ⟨by simpa using hrest, rfl⟩
  · rintro ⟨hrest, rfl⟩
    exact ⟨false, if_neg (by simp [hrest])⟩

/-! ## Names and integers -/

/-- A name is as long as its characters go, and must not be reserved then. -/
theorem yields_name_iff {rules : NameRules} {word : String} :
    (name rules).Yields c word stop ↔
      ∃ first rest, c.rest = first :: rest ∧ rules.start first = true ∧
        word.toList = first :: rest.takeWhile rules.inner ∧ word ∉ rules.reserved ∧
        c.advanceBy word.length = stop := by
  unfold Yields Gives name
  constructor
  · rintro ⟨progress, h⟩
    split at h
    · next first rest hrest =>
      dsimp only at h
      split at h
      · next hc =>
        rw [Bool.and_eq_true, Bool.not_eq_true', List.contains_eq_mem,
          decide_eq_false_iff_not] at hc
        cases h
        refine ⟨first, rest, hrest, hc.1, String.toList_ofList, hc.2, ?_⟩
        rw [String.length_ofList]
      · cases h
    · cases h
  · rintro ⟨first, rest, hrest, hstart, hword, hres, rfl⟩
    have hof : String.ofList (first :: rest.takeWhile rules.inner) = word := by
      rw [← hword, String.ofList_toList]
    have hlen : (first :: rest.takeWhile rules.inner).length = word.length := by
      rw [← hword, String.length_toList]
    refine ⟨true, ?_⟩
    rw [hrest]
    dsimp only
    rw [if_pos, hof, hlen]
    rw [Bool.and_eq_true, Bool.not_eq_true', List.contains_eq_mem, decide_eq_false_iff_not, hof]
    exact ⟨hstart, hres⟩

/-- A name parser never fails after progress. -/
theorem passes_name_of_not_yields {rules : NameRules}
    (h : ∀ word stop, ¬(name rules).Yields c word stop) : (name rules).Passes c := by
  cases hrest : c.rest with
  | nil => exact ⟨_, _, by rw [name, hrest]; rfl⟩
  | cons first rest =>
    by_cases hc : rules.start first && !rules.reserved.contains
        (String.ofList (first :: rest.takeWhile rules.inner))
    · exact absurd ⟨true, by rw [name, hrest]; exact if_pos hc⟩ (h _ _)
    · exact ⟨_, _, by rw [name, hrest]; exact if_neg hc⟩

theorem isDigit_of_mem_literalDigits {a : Char} {text : List Char} (h : a ∈ literalDigits text) :
    a.isDigit = true := by
  unfold literalDigits at h
  split at h
  · cases List.mem_singleton.mp h
    rfl
  · exact List.all_eq_true.mp List.all_takeWhile a h

/-- A literal is read with all its digits if it is in range and nothing spoils it. -/
theorem yields_int_iff {n : Int64} :
    int.Yields c n stop ↔
      ∃ digits, literalDigits c.rest = digits ∧ digits ≠ [] ∧
        Nat.ofDigitChars 10 digits 0 ≤ greatestInt ∧
        spoilsLiteral digits (c.rest.drop digits.length).head? = false ∧
        Int64.ofNat (Nat.ofDigitChars 10 digits 0) = n ∧ c.advanceBy digits.length = stop := by
  unfold Yields Gives int
  constructor
  · rintro ⟨progress, h⟩
    dsimp only at h
    split at h
    · cases h
    · next hne =>
      split at h
      · next hc =>
        rw [Bool.and_eq_true, decide_eq_true_iff, Bool.not_eq_true'] at hc
        cases h
        exact ⟨_, rfl, fun heq => hne (by rw [heq]; rfl), hc.1, hc.2, rfl, rfl⟩
      · cases h
  · rintro ⟨digits, rfl, hne, hle, hspoils, rfl, rfl⟩
    refine ⟨true, ?_⟩
    dsimp only
    rw [if_neg (by simpa using hne), if_pos]
    rw [Bool.and_eq_true, decide_eq_true_iff, Bool.not_eq_true']
    exact ⟨hle, hspoils⟩

/-- A literal has digits if the text starts with one. -/
theorem isEmpty_literalDigits (text : List Char) :
    (literalDigits text).isEmpty = !text.head?.any Char.isDigit := by
  cases text with
  | nil => rfl
  | cons a text =>
    unfold literalDigits
    cases ha : a.isDigit with
    | true =>
      rw [List.takeWhile_cons_of_pos ha]
      split <;> simp_all
    | false =>
      rw [List.takeWhile_cons_of_neg (by simp [ha])]
      simp [ha]

/-- An integer is read with progress; without one the reader fails on the spot. -/
theorem int_cases (c : Cursor) :
    (∃ n stop, int c = some ⟨.good true n, stop⟩) ∨
      int c = some ⟨.bad (c.rest.head?.any Char.isDigit) [c.deadEnd .expectingInt], c⟩ := by
  have hempty := isEmpty_literalDigits c.rest
  unfold int
  dsimp only
  split
  · next hnone =>
    rw [hnone, eq_comm, Bool.not_eq_true'] at hempty
    rw [hempty]
    exact Or.inr rfl
  · next hsome =>
    rw [Bool.not_eq_true] at hsome
    rw [hsome, eq_comm, Bool.not_eq_false'] at hempty
    rw [hempty]
    split
    · exact Or.inl ⟨_, _, rfl⟩
    · exact Or.inr rfl

theorem progressive_int : int.Progressive := by
  intro c n stop h
  rcases int_cases c with ⟨n', stop', hgood⟩ | hbad
  · rw [h] at hgood
    cases hgood
  · rw [h] at hbad
    cases hbad

/-- A text without a number passes when the progress of its reader is hidden. -/
theorem passes_int_of_not_yields (h : ∀ n stop, ¬int.Yields c n stop) :
    int.backtrackable.Passes c := by
  rcases int_cases c with ⟨n, stop, hgood⟩ | hbad
  · exact absurd ⟨true, hgood⟩ (h n stop)
  · exact passes_backtrackable hbad

end Parser

/-! ## Rules around a token -/

namespace Rule

variable {σ : Type → Type} {call : {α : Type} → σ α → Parser α} {α β : Type} {r : Rule σ α}
  {c stop : Cursor}

theorem yields_map_iff {f : α → β} {result : β} :
    ((r.map f).denote call).Yields c result stop ↔
      ∃ value, (r.denote call).Yields c value stop ∧ f value = result := by
  refine Parser.yields_bind_iff.trans ?_
  constructor
  · rintro ⟨value, mid, h, hs⟩
    obtain ⟨rfl, rfl⟩ := Parser.yields_succeed_iff.mp hs
    exact ⟨value, h, rfl⟩
  · rintro ⟨value, h, rfl⟩
    exact ⟨value, stop, h, Parser.yields_succeed_iff.mpr ⟨rfl, rfl⟩⟩

theorem passes_map_iff {f : α → β} :
    ((r.map f).denote call).Passes c ↔ (r.denote call).Passes c := by
  refine ⟨fun h => ?_, Parser.passes_bind⟩
  rcases Parser.passes_bind_cases h with h | ⟨value, mid, -, hs⟩
  · exact h
  · have hy : (Parser.succeed (f value)).Yields mid (f value) mid :=
      Parser.yields_succeed_iff.mpr ⟨rfl, rfl⟩
    exact absurd hs hy.not_passes

theorem yields_skip_iff {s : Rule σ β} {value : α} :
    ((r.skip s).denote call).Yields c value stop ↔
      ∃ mid skipped, (r.denote call).Yields c value mid ∧
        (s.denote call).Yields mid skipped stop := by
  refine Parser.yields_bind_iff.trans ?_
  constructor
  · rintro ⟨value', mid, hr, h⟩
    obtain ⟨skipped, stop', hs, h⟩ := Parser.yields_bind_iff.mp h
    obtain ⟨rfl, rfl⟩ := Parser.yields_succeed_iff.mp h
    exact ⟨mid, skipped, hr, hs⟩
  · rintro ⟨mid, skipped, hr, hs⟩
    exact ⟨value, mid, hr, Parser.yields_bind_iff.mpr
      ⟨skipped, stop, hs, Parser.yields_succeed_iff.mpr ⟨rfl, rfl⟩⟩⟩

theorem yields_skipLeft_iff {s : Rule σ β} {value : β} :
    ((r.skipLeft s).denote call).Yields c value stop ↔
      ∃ skipped mid, (r.denote call).Yields c skipped mid ∧ (s.denote call).Yields mid value stop :=
  Parser.yields_bind_iff

theorem yields_spaces_iff {u : Unit} :
    ((spaces : Rule σ Unit).denote call).Yields c u stop ↔ c.skipLayout = stop :=
  Parser.yields_chompWhile_iff

/-- A spaced rule stops behind the layout that follows. -/
theorem yields_spaced_iff {value : α} :
    (r.spaced.denote call).Yields c value stop ↔
      ∃ mid, (r.denote call).Yields c value mid ∧ mid.skipLayout = stop := by
  rw [spaced, yields_skip_iff]
  constructor
  · rintro ⟨mid, u, h, hs⟩
    exact ⟨mid, h, yields_spaces_iff.mp hs⟩
  · rintro ⟨mid, h, hs⟩
    exact ⟨mid, (), h, yields_spaces_iff.mpr hs⟩

/-- The layout behind a token never fails, so only the token can pass. -/
theorem passes_spaced_iff : (r.spaced.denote call).Passes c ↔ (r.denote call).Passes c := by
  refine ⟨fun h => ?_, Parser.passes_bind⟩
  rcases Parser.passes_bind_cases h with h | ⟨value, mid, -, hs⟩
  · exact h
  · have hy : (((spaces : Rule σ Unit).denote call).bind fun _ => Parser.succeed value).Yields mid
        value mid.skipLayout :=
      Parser.yields_bind_iff.mpr
        ⟨(), _, yields_spaces_iff.mpr rfl, Parser.yields_succeed_iff.mpr ⟨rfl, rfl⟩⟩
    exact absurd hs hy.not_passes

/-- Punctuation is read with the layout behind it, whatever comes next. -/
theorem yields_sign_iff {text : String} {u : Unit} :
    (((symbol text).spaced : Rule σ Unit).denote call).Yields c u stop ↔
      text.toList <+: c.rest ∧ (c.advanceBy text.length).skipLayout = stop := by
  rw [yields_spaced_iff]
  constructor
  · rintro ⟨mid, h, hs⟩
    obtain ⟨hp, -, rfl⟩ := Parser.yields_token_iff.mp h
    exact ⟨hp, hs⟩
  · rintro ⟨hp, hs⟩
    refine ⟨_, Parser.yields_token_iff.mpr ⟨hp, ?_, rfl⟩, hs⟩
    cases (c.rest.drop text.length).head? <;> rfl

theorem passes_sign_iff {text : String} :
    (((symbol text).spaced : Rule σ Unit).denote call).Passes c ↔ ¬text.toList <+: c.rest := by
  rw [passes_spaced_iff]
  refine Parser.passes_token_iff.trans (not_congr ⟨And.left, fun h => ⟨h, ?_⟩⟩)
  cases (c.rest.drop text.length).head? <;> rfl

theorem yields_parens_iff {value : α} :
    ((parens r).denote call).Yields c value stop ↔
      ∃ inner mid, (((symbol "(").spaced : Rule σ Unit).denote call).Yields c () inner ∧
        (r.denote call).Yields inner value mid ∧
        (((symbol ")").spaced : Rule σ Unit).denote call).Yields mid.skipLayout () stop := by
  rw [parens, between, yields_skip_iff]
  constructor
  · rintro ⟨behind, u, h, hclose⟩
    obtain ⟨u', inner, hopen, hspaced⟩ := yields_skipLeft_iff.mp h
    obtain ⟨mid, hvalue, rfl⟩ := yields_spaced_iff.mp hspaced
    exact ⟨inner, mid, hopen, hvalue, hclose⟩
  · rintro ⟨inner, mid, hopen, hvalue, hclose⟩
    exact ⟨mid.skipLayout, (), yields_skipLeft_iff.mpr
      ⟨(), inner, hopen, yields_spaced_iff.mpr ⟨mid, hvalue, rfl⟩⟩, hclose⟩

theorem progressive_sign {text : String} (hne : text ≠ "") :
    (((symbol text).spaced : Rule σ Unit).denote call).Progressive :=
  (Parser.progressive_token hne _ _).bind

/-- A phrase in parentheses passes where no parenthesis opens. -/
theorem passes_parens_iff :
    ((parens r).denote call).Passes c ↔ ¬"(".toList <+: c.rest := by
  have hopen : (((symbol "(").spaced : Rule σ Unit).denote call).Progressive :=
    progressive_sign (by decide)
  exact (hopen.bind.passes_bind_iff.trans hopen.passes_bind_iff).trans passes_sign_iff

/-- A row of at least one ends where the rule is passed over. -/
theorem yields_many1_iff {first : α} {others : List α} :
    (r.many1.denote call).Yields c (first, others) stop ↔
      ∃ mid, (r.denote call).Yields c first mid ∧
        Parser.Row (r.denote call) mid others stop ∧ (r.denote call).Passes stop := by
  refine Parser.yields_bind_iff.trans ?_
  constructor
  · rintro ⟨first', mid, h, hm⟩
    obtain ⟨others', stop', hm, hs⟩ := Parser.yields_bind_iff.mp hm
    obtain ⟨heq, rfl⟩ := Parser.yields_succeed_iff.mp hs
    cases heq
    exact ⟨mid, h, Parser.yields_many_iff.mp hm⟩
  · rintro ⟨mid, h, hrow⟩
    exact ⟨first, mid, h, Parser.gives_bind (Parser.yields_many_iff.mpr hrow)
      (Parser.yields_succeed_iff.mpr ⟨rfl, rfl⟩)⟩

end Rule

end TypedLambda
