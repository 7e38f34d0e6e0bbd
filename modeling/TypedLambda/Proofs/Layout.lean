import TypedLambda.Expr.Parse
import TypedLambda.Proofs.Grammar.Lexical
import TypedLambda.Proofs.Parser.Agreement

/-!
# Layout does not matter

A run of layout may be replaced by another one, and layout may be put before and behind a text,
without a change in what is read or in the problems reported. Layout is never made up nor taken away
inside a text: it may be what parts two words.

The two texts are read side by side. Every token looks at characters up to the first layout only,
and there the texts are the same; the layout behind the token is read together with it, so each next
token starts at characters that correspond.
-/

namespace TypedLambda

open TypedLambda.Derivation (Blank Gap Stops isLayout_iff gap_iff gap_self gap_space stops_cons_iff)

/-! ## Texts that differ in layout -/

/-- The same characters, runs of layout apart; at the end there may be layout in one text only. -/
inductive Relaid : List Char → List Char → Prop
  | ending {s t : List Char} (hs : Gap s []) (ht : Gap t []) : Relaid s t
  | same (a : Char) {s t : List Char} (h : Relaid s t) : Relaid (a :: s) (a :: t)
  | run {a b : Char} {s s' t t' : List Char} (ha : Blank a) (hb : Blank b) (hs : Gap s s')
    (ht : Gap t t') (h : Relaid s' t') : Relaid (a :: s) (b :: t)

/-- Two texts that differ only in layout, which may also be added at both ends. -/
def SameButLayout (s t : List Char) : Prop := ∃ s' t', Gap s s' ∧ Gap t t' ∧ Relaid s' t'

namespace Relaid

variable {s t : List Char}

theorem symm (h : Relaid s t) : Relaid t s := by
  induction h with
  | ending hs ht => exact .ending ht hs
  | same a _ ih => exact .same a ih
  | run ha hb hs ht _ ih => exact .run hb ha ht hs ih

/-- A character that is no layout has its like in the other text. -/
theorem exists_eq_cons {a : Char} (h : Relaid (a :: s) t) (ha : ¬Blank a) :
    ∃ t', t = a :: t' ∧ Relaid s t' := by
  cases h with
  | ending hs _ =>
    rcases hs.cons_cases with heq | ⟨hblank, -⟩
    · cases heq
    · exact absurd hblank ha
  | same _ h => exact ⟨_, rfl, h⟩
  | run hblank => exact absurd hblank ha

/-- What starts one text and has no layout starts the other, and the texts behind it correspond. -/
theorem drop_of_isPrefix {text : List Char} (h : Relaid s t) (hp : text <+: s)
    (htext : ∀ a ∈ text, ¬Blank a) :
    text <+: t ∧ Relaid (s.drop text.length) (t.drop text.length) := by
  induction text generalizing s t with
  | nil => exact ⟨List.nil_prefix, h⟩
  | cons a text ih =>
    rw [List.forall_mem_cons] at htext
    obtain ⟨behind, rfl⟩ := hp
    obtain ⟨t', rfl, hbehind⟩ := h.exists_eq_cons htext.1
    obtain ⟨hp, hdrop⟩ := ih hbehind (List.prefix_append text behind) htext.2
    exact ⟨List.cons_prefix_cons.mpr ⟨rfl, hp⟩, hdrop⟩

/-- Two layouts of a text start with the same characters of a class without layout. -/
theorem takeWhile_eq (h : Relaid s t) {p : Char → Bool} (hp : ∀ a, p a = true → ¬Blank a) :
    s.takeWhile p = t.takeWhile p := by
  have hblank : ∀ {a : Char} {s : List Char}, Blank a → (a :: s).takeWhile p = [] :=
    fun ha => List.takeWhile_cons_of_neg fun hpa => hp _ hpa ha
  have hgap : ∀ {s : List Char}, Gap s [] → s.takeWhile p = [] := by
    intro s hs
    cases s with
    | nil => rfl
    | cons a s =>
      rcases hs.cons_cases with heq | ⟨ha, -⟩
      · cases heq
      · exact hblank ha
  induction h with
  | ending hs ht => rw [hgap hs, hgap ht]
  | same a _ ih => rw [List.takeWhile_cons, List.takeWhile_cons, ih]
  | run ha hb => rw [hblank ha, hblank hb]

theorem any_head?_eq (h : Relaid s t) {p : Char → Bool} (hp : ∀ a, p a = true → ¬Blank a) :
    s.head?.any p = t.head?.any p := by
  have hany : ∀ s : List Char, s.head?.any p = !(s.takeWhile p).isEmpty := by
    intro s
    cases s with
    | nil => rfl
    | cons a s => cases hpa : p a <;> simp [hpa]
  rw [hany, hany, h.takeWhile_eq hp]

theorem dropWhile_isLayout (h : Relaid s t) :
    Relaid (s.dropWhile isLayout) (t.dropWhile isLayout) := by
  induction h with
  | ending hs ht =>
    rw [hs.dropWhile_eq, ht.dropWhile_eq]
    exact .ending gap_self gap_self
  | same a h ih =>
    rw [List.dropWhile_cons, List.dropWhile_cons]
    split
    · exact ih
    · exact .same a h
  | run ha hb hs ht _ ih =>
    rw [List.dropWhile_cons_of_pos (isLayout_iff.mpr ha),
      List.dropWhile_cons_of_pos (isLayout_iff.mpr hb), hs.dropWhile_eq, ht.dropWhile_eq]
    exact ih

end Relaid

/-- Texts that differ in layout but do not start with it. -/
structure Flush (s t : List Char) : Prop where
  relaid : Relaid s t
  left : Stops Blank s
  right : Stops Blank t

/-- Behind the layout at the start, both texts are flush. -/
theorem SameButLayout.flush {s t : List Char} (h : SameButLayout s t) :
    Flush (s.dropWhile isLayout) (t.dropWhile isLayout) := by
  obtain ⟨s', t', hs, ht, h⟩ := h
  refine ⟨?_, (gap_iff.mpr rfl).2, (gap_iff.mpr rfl).2⟩
  rw [hs.dropWhile_eq, ht.dropWhile_eq]
  exact h.dropWhile_isLayout

theorem Relaid.sameButLayout {s t : List Char} (h : Relaid s t) : SameButLayout s t :=
  ⟨s, t, gap_self, gap_self, h⟩

/-- Texts that correspond and do not start with layout end together. -/
theorem Flush.isEmpty_eq {s t : List Char} (h : Flush s t) : s.isEmpty = t.isEmpty := by
  have hgap : ∀ {s : List Char}, Gap s [] → Stops Blank s → s = [] := by
    intro s hs hstop
    cases s with
    | nil => rfl
    | cons a s =>
      rcases hs.cons_cases with heq | ⟨ha, -⟩
      · cases heq
      · exact absurd ha (stops_cons_iff.mp hstop)
  obtain ⟨h, hs, ht⟩ := h
  cases h with
  | ending hgs hgt => rw [hgap hgs hs, hgap hgt ht]
  | same => rfl
  | run => rfl

/-! ## Tokens side by side -/

namespace Parser

/-- A text without layout is found in both texts or in neither. -/
theorem agree_token {text : String} (htext : text.toList.any isLayout = false) (problem : Problem)
    {runsOn : Char → Bool} (hr : ∀ a, runsOn a = true → ¬Blank a) :
    Agree true Relaid Relaid (token text problem runsOn) (token text problem runsOn) := by
  intro c d r s hcd hc hd
  have hlen : text.toList.length = text.length := String.length_toList
  have hblank : ∀ a ∈ text.toList, ¬Blank a := fun a ha hblank =>
    List.any_eq_false.mp htext a ha (isLayout_iff.mpr hblank)
  have hbegins : ∀ {c d : Cursor}, Relaid c.rest d.rest →
      (text.toList.isPrefixOf c.rest && !(c.rest.drop text.length).head?.any runsOn) = true →
      (text.toList.isPrefixOf d.rest && !(d.rest.drop text.length).head?.any runsOn) = true ∧
        Relaid (c.rest.drop text.length) (d.rest.drop text.length) := by
    intro c d hcd h
    rw [Bool.and_eq_true, List.isPrefixOf_iff_prefix] at h
    obtain ⟨hp, hdrop⟩ := hcd.drop_of_isPrefix h.1 hblank
    rw [hlen] at hdrop
    refine ⟨?_, hdrop⟩
    rw [Bool.and_eq_true, List.isPrefixOf_iff_prefix, ← hdrop.any_head?_eq hr]
    exact ⟨hp, h.2⟩
  unfold token at hc hd
  split at hc
  · next h =>
    obtain ⟨h', hdrop⟩ := hbegins hcd h
    rw [if_pos h'] at hd
    cases hc
    cases hd
    exact .good hdrop
  · next h =>
    rw [if_neg fun h' => h (hbegins hcd.symm h').1] at hd
    exact agree_fail problem hcd hc hd

/-- A name is read from a run of inner characters, if its first characters are among them. -/
theorem name_eq {rules : NameRules} (hrules : ∀ a, rules.start a = true → rules.inner a = true)
    (c : Cursor) :
    name rules c =
      if c.rest.head?.any rules.start &&
          !rules.reserved.contains (String.ofList (c.rest.takeWhile rules.inner)) then
        some ⟨.good true (String.ofList (c.rest.takeWhile rules.inner)),
          c.advanceBy (c.rest.takeWhile rules.inner).length⟩
      else fail .expectingVariable c := by
  unfold name
  split
  · next first rest hrest =>
    rw [hrest]
    cases hstart : rules.start first with
    | false => simp [hstart]
    | true =>
      rw [List.takeWhile_cons_of_pos (hrules first hstart)]
      simp [hstart]
  · next hrest => rw [hrest]; rfl

theorem agree_name {rules : NameRules} (hrules : ∀ a, rules.start a = true → rules.inner a = true)
    (hinner : ∀ a, rules.inner a = true → ¬Blank a) :
    Agree true Relaid Relaid (name rules) (name rules) := by
  intro c d r s hcd hc hd
  have hword := hcd.takeWhile_eq hinner
  rw [name_eq hrules, ← hword, ← hcd.any_head?_eq fun a ha => hinner a (hrules a ha)] at hd
  rw [name_eq hrules] at hc
  split at hc
  · next h =>
    rw [if_pos h] at hd
    cases hc
    cases hd
    refine .good (hcd.drop_of_isPrefix (List.takeWhile_prefix rules.inner) fun a ha => ?_).2
    exact hinner a (List.all_eq_true.mp List.all_takeWhile a ha)
  · next h =>
    rw [if_neg h] at hd
    exact agree_fail .expectingVariable hcd hc hd

theorem agree_int : Agree true Relaid Relaid int int := by
  intro c d r s hcd hc hd
  have hdigit : ∀ a : Char, a.isDigit = true → ¬Blank a := by
    rintro a ha (rfl | rfl | rfl) <;> cases ha
  have hdigits : literalDigits c.rest = literalDigits d.rest := by
    unfold literalDigits
    rw [hcd.takeWhile_eq hdigit]
  have hdrop := (hcd.drop_of_isPrefix (literalDigits_isPrefixOf c.rest) fun a ha =>
    hdigit a (isDigit_of_mem_literalDigits ha)).2
  have hspoils : spoilsLiteral (literalDigits c.rest)
        (c.rest.drop (literalDigits c.rest).length).head? =
      spoilsLiteral (literalDigits c.rest) (d.rest.drop (literalDigits c.rest).length).head? := by
    generalize literalDigits c.rest = digits at hdrop ⊢
    have hany : ∀ next,
        spoilsLiteral digits next = next.any fun a => spoilsLiteral digits (some a) := by
      intro next
      cases next <;> rfl
    rw [hany, hany]
    refine hdrop.any_head?_eq ?_
    rintro a ha (rfl | rfl | rfl) <;> simp [spoilsLiteral] at ha
  unfold int at hc hd
  dsimp only at hc hd
  rw [← hdigits, ← hspoils] at hd
  split at hc
  · next h =>
    rw [if_pos h] at hd
    exact agree_fail .expectingInt hcd hc hd
  · next h =>
    rw [if_neg h] at hd
    split at hc
    · next h =>
      rw [if_pos h] at hd
      cases hc
      cases hd
      exact .good hdrop
    · next h =>
      rw [if_neg h] at hd
      cases hc
      cases hd
      exact .bad (fun _ => rfl) rfl

/-- Behind layout, the texts are flush. -/
theorem agree_layout :
    Agree true SameButLayout Flush (chompWhile isLayout) (chompWhile isLayout) := by
  intro c d r s hcd hc hd
  cases hc
  cases hd
  refine .good ?_
  have hflush := hcd.flush
  rw [← Cursor.rest_skipLayout, ← Cursor.rest_skipLayout] at hflush
  exact hflush

/-- Flush texts end together. -/
theorem agree_endOfInput : Agree true Flush Flush endOfInput endOfInput := by
  intro c d r s hcd hc hd
  unfold endOfInput Cursor.hasNext at hc hd
  rw [hcd.isEmpty_eq] at hc
  split at hc
  · next h =>
    rw [if_pos h] at hd
    exact agree_fail .expectingEnd hcd hc hd
  · next h =>
    rw [if_neg h] at hd
    exact agree_succeed () hcd hc hd

end Parser

/-! ## Rules side by side -/

namespace Rule

variable {σ : Type → Type} {call call' : {α : Type} → σ α → Parser α} {α β : Type} {r : Rule σ α}
  {R R' : List Char → List Char → Prop}

theorem agree_map (f : α → β) (h : Parser.Agree true R R' (r.denote call) (r.denote call')) :
    Parser.Agree true R R' ((r.map f).denote call) ((r.map f).denote call') :=
  h.bind_commits (fun value => Parser.agree_succeed (f value)) fun value =>
    Parser.commits_succeed (f value)

/-- Whatever ends at corresponding places ends, with layout, where no layout follows. -/
theorem agree_spaced (h : Parser.Agree true R Relaid (r.denote call) (r.denote call')) :
    Parser.Agree true R Flush (r.spaced.denote call) (r.spaced.denote call') := by
  have hlayout : Parser.Agree true Relaid Flush (Parser.chompWhile isLayout)
      (Parser.chompWhile isLayout) :=
    Parser.agree_layout.mono (fun _ _ => Relaid.sameButLayout) fun _ _ h => h
  refine h.bind_commits (fun value => hlayout.bind_commits (fun _ => Parser.agree_succeed value)
    fun _ => Parser.commits_succeed value) fun value => ?_
  exact (Parser.commits_chompWhile isLayout).bind fun _ => Parser.commits_succeed value

theorem agree_sign {text : String} (htext : text.toList.any isLayout = false) :
    Parser.Agree true Flush Flush (((symbol text).spaced : Rule σ Unit).denote call)
      (((symbol text).spaced : Rule σ Unit).denote call') :=
  (agree_spaced (Parser.agree_token htext _ (by simp))).mono (fun _ _ => Flush.relaid)
    fun _ _ h => h

theorem agree_parens (h : Parser.Agree true Flush Flush (r.denote call) (r.denote call')) :
    Parser.Agree true Flush Flush ((parens r).denote call) ((parens r).denote call') := by
  have hopen : ∀ call : {α : Type} → σ α → Parser α,
      (((symbol "(").spaced : Rule σ Unit).denote call).Progressive :=
    fun _ => progressive_sign (by decide)
  have hsign : ∀ text ∈ ["(", ")"],
      Parser.Agree true Flush Flush (((symbol text).spaced : Rule σ Unit).denote call)
        (((symbol text).spaced : Rule σ Unit).denote call') :=
    fun text htext => agree_sign (by revert text; decide)
  have hspaced := agree_spaced (h.mono (fun _ _ h => h) fun _ _ => Flush.relaid)
  have hinner := (hsign "(" (by simp)).bind_progressive (hopen call) (hopen call')
    fun _ => hspaced.loose
  exact hinner.bind_progressive (hopen call).bind (hopen call').bind fun value =>
    (hsign ")" (by simp)).loose.bind_loose fun _ => Parser.agree_succeed value

end Rule

namespace Phrase

open Rule

variable {call call' : {α : Type} → Phrase α → Parser α}

theorem agree_word {text : String} (htext : text.toList.any isLayout = false) :
    Parser.Agree true Flush Flush ((word text).denote call) ((word text).denote call') := by
  have hrunsOn : ∀ a, isWordChar a = true → ¬Blank a := by
    rintro a ha (rfl | rfl | rfl) <;> cases ha
  exact (agree_spaced (Parser.agree_token htext _ hrunsOn)).mono (fun _ _ => Flush.relaid)
    fun _ _ h => h

theorem agree_identifier :
    Parser.Agree true Flush Flush (identifier.denote call) (identifier.denote call') := by
  have hinner : ∀ a, identifierRules.inner a = true → ¬Blank a := by
    rintro a ha (rfl | rfl | rfl) <;> cases ha
  have hstart : ∀ a, identifierRules.start a = true → identifierRules.inner a = true := by
    intro a (ha : a.isLower = true)
    show ((a.isUpper || a.isLower || a.isDigit) || a == '_' || a == '\x27') = true
    rw [ha, Bool.or_true, Bool.true_or, Bool.true_or, Bool.true_or]
  exact (agree_spaced (Parser.agree_name hstart hinner)).mono (fun _ _ => Flush.relaid)
    fun _ _ h => h

theorem agree_infixed {α : Type} {text : String} (htext : text.toList.any isLayout = false)
    (hne : text ≠ "") (combine : α → α → α) (a : Associativity) :
    Parser.Agree true Flush Flush ((infixed text combine a).rule.denote call)
        ((infixed text combine a).rule.denote call') ∧
      ((infixed text combine a).rule.denote call).Progressive ∧
      ((infixed text combine a).rule.denote call').Progressive :=
  ⟨agree_map _ (agree_sign htext), (progressive_sign hne).bind, (progressive_sign hne).bind⟩

section

variable (ht : Parser.Agree true Flush Flush (call Phrase.type) (call' Phrase.type))
include ht

theorem agree_typeRule :
    Parser.Agree true Flush Flush (typeRule.denote call) (typeRule.denote call') := by
  refine agree_table (agree_oneOf ?_) ?_
  · simp only [List.mem_cons, List.not_mem_nil, or_false, forall_eq_or_imp, forall_eq]
    exact ⟨agree_parens ht, agree_map _ (agree_word (by decide)),
      agree_map _ (agree_word (by decide))⟩
  · simp only [List.mem_cons, List.not_mem_nil, or_false, forall_eq]
    exact agree_infixed (by decide) (by decide) _ _

variable (he : Parser.Agree true Flush Flush (call expression) (call' expression))
include he

omit ht in
theorem agree_conditional :
    Parser.Agree true Flush Flush (conditional.denote call) (conditional.denote call') := by
  have hword : ∀ text ∈ ["if", "then", "else"],
      Parser.Agree true Flush Flush ((word text).denote call) ((word text).denote call') :=
    fun text _ => agree_word (by revert text; decide)
  have hif : ∀ call : {α : Type} → Phrase α → Parser α, ((word "if").denote call).Progressive :=
    fun _ => (Parser.progressive_token (by decide) _ _).bind
  exact (hword "if" (by simp)).bind_progressive (hif call) (hif call') fun _ =>
    he.loose.bind_loose fun _ => (hword "then" (by simp)).loose.bind_loose fun _ =>
    he.loose.bind_loose fun _ => (hword "else" (by simp)).loose.bind_loose fun _ =>
    he.loose.bind_loose fun _ => Parser.agree_succeed _

theorem agree_function :
    Parser.Agree true Flush Flush (function.denote call) (function.denote call') := by
  have hsign : ∀ text ∈ ["\\", ":", "."],
      Parser.Agree true Flush Flush ((sign text).denote call) ((sign text).denote call') :=
    fun text _ => agree_sign (by revert text; decide)
  have hopen : ∀ call : {α : Type} → Phrase α → Parser α, ((sign "\\").denote call).Progressive :=
    fun _ => progressive_sign (by decide)
  exact (hsign "\\" (by simp)).bind_progressive (hopen call) (hopen call') fun _ =>
    agree_identifier.loose.bind_loose fun _ => (hsign ":" (by simp)).loose.bind_loose fun _ =>
    ht.loose.bind_loose fun _ => (hsign "." (by simp)).loose.bind_loose fun _ =>
    he.loose.bind_loose fun _ => Parser.agree_succeed _

theorem agree_atom :
    Parser.Agree true Flush Flush (atom.denote call) (atom.denote call') := by
  have hkey : ∀ text ∈ ["True", "False"], ∀ value : Literal,
      Parser.Agree true Relaid Relaid (((keyword text).map fun _ => value).denote call)
        (((keyword text).map fun _ => value).denote call') := by
    intro text htext value
    refine agree_map _ (Parser.agree_token (by revert text; decide) _ ?_)
    rintro a ha (rfl | rfl | rfl) <;> cases ha
  have hboolean : Parser.Agree true Relaid Flush (boolean.denote call) (boolean.denote call') := by
    refine agree_spaced (agree_oneOf ?_)
    simp only [List.mem_cons, List.not_mem_nil, or_false, forall_eq_or_imp, forall_eq]
    exact ⟨hkey "True" (by simp) _, hkey "False" (by simp) _⟩
  have hnumber : Parser.Agree true Relaid Flush (number.denote call) (number.denote call') :=
    agree_map _ (agree_spaced Parser.agree_int.backtrackable)
  refine agree_oneOf ?_
  simp only [List.mem_cons, List.not_mem_nil, or_false, forall_eq_or_imp, forall_eq]
  exact ⟨agree_parens he, (agree_map _ hboolean).mono (fun _ _ => Flush.relaid) fun _ _ h => h,
    (agree_map _ hnumber).mono (fun _ _ => Flush.relaid) fun _ _ h => h,
    agree_map _ agree_identifier, agree_conditional he, agree_function ht he⟩

theorem agree_expressionRule :
    Parser.Agree true Flush Flush (expressionRule.denote call) (expressionRule.denote call') := by
  have hatom := agree_atom ht he
  have hrow := hatom.bind_commits (fun first => hatom.many.bind_commits
    (fun others => Parser.agree_succeed (first, others)) fun others => Parser.commits_succeed _)
    fun first => (Parser.commits_many _).bind fun others => Parser.commits_succeed _
  refine agree_table (agree_map _ hrow) ?_
  have hop : ∀ op a,
      Parser.Agree true Flush Flush ((binary op a).rule.denote call)
          ((binary op a).rule.denote call') ∧
        ((binary op a).rule.denote call).Progressive ∧
        ((binary op a).rule.denote call').Progressive :=
    fun op a => agree_infixed (by cases op <;> decide) (by cases op <;> decide) _ a
  simp only [operatorTable, List.mem_cons, List.not_mem_nil, or_false, forall_eq_or_imp, forall_eq]
  exact ⟨hop _ _, hop _ _, hop _ _, ⟨hop _ _, hop _ _⟩, hop _ _, hop _ _⟩

end

/-- **Phrases are read alike from texts that differ in layout, to whatever depths.** -/
theorem agree_call : ∀ (depth depth' : Nat) {α : Type} (x : Phrase α),
    Parser.Agree true Flush Flush (grammar.call depth x) (grammar.call depth' x)
  | 0, _, _, _ => fun c d r s _ hr => by cases hr
  | _ + 1, 0, _, _ => fun c d r s _ _ hs => by cases hs
  | depth + 1, depth' + 1, _, Phrase.type => agree_typeRule (agree_call depth depth' Phrase.type)
  | depth + 1, depth' + 1, _, expression =>
    agree_expressionRule (agree_call depth depth' Phrase.type) (agree_call depth depth' expression)

/-- Whole texts are read alike, layout at both ends included. -/
theorem agree_whole (depth depth' : Nat) {α : Type} (x : Phrase α) :
    Parser.Agree false SameButLayout Flush (grammar.denote depth (x.whole.skip .endOfInput))
      (grammar.denote depth' (x.whole.skip .endOfInput)) := by
  have hwhole := Parser.agree_layout.loose.bind_loose fun _ => (agree_call depth depth' x).loose
  exact hwhole.bind_loose fun value => Parser.agree_endOfInput.loose.bind_loose fun _ =>
    Parser.agree_succeed value

end Phrase

/-! ## Whole texts -/

/-- The problems of a failed parse, without their places. -/
def ParseError.problems (e : ParseError) : List Problem := e.deadEnds.map DeadEnd.problem

/-- A phrase is read with the same value, or fails with the same problems. -/
theorem Phrase.read_eq_of_sameButLayout {α : Type} (x : Phrase α) {source source' : String}
    (h : SameButLayout source.toList source'.toList) :
    (x.read source).mapError ParseError.problems =
      (x.read source').mapError ParseError.problems := by
  have hrun : ∀ source : String, ∃ reply, grammar.denote (source.length + 1)
      (x.whole.skip .endOfInput) (.start source) = some reply ∧
        reply.step.toExcept = x.read source := by
    intro source
    exact Option.map_eq_some_iff.mp (x.run_whole source)
  obtain ⟨r, hr, hread⟩ := hrun source
  obtain ⟨s, hs, hread'⟩ := hrun source'
  rw [← hread, ← hread']
  cases agree_whole _ _ x h hr hs with
  | good => rfl
  | bad _ hproblems => exact congrArg Except.error hproblems

/--
**The outcome of reading does not depend on layout.** Two texts that differ only in layout give the
same tree, or the same problems in the same order; for expressions and for types.
-/
theorem parse_outcome_ignores_layout {source source' : String}
    (h : SameButLayout source.toList source'.toList) :
    (Expr.parse source).mapError ParseError.problems =
        (Expr.parse source').mapError ParseError.problems ∧
      (Ty.parse source).mapError ParseError.problems =
        (Ty.parse source').mapError ParseError.problems :=
  ⟨Phrase.expression.read_eq_of_sameButLayout h, Phrase.type.read_eq_of_sameButLayout h⟩

/-- An operand is missing, with other layout around the operator. -/
theorem parse_outcome_ignores_layout_operand_missing :
    SameButLayout "x \n+".toList " x +\r".toList ∧
      (Expr.parse "x \n+").mapError ParseError.problems =
        (Expr.parse " x +\r").mapError ParseError.problems := by
  have h : SameButLayout "x \n+".toList " x +\r".toList := by
    refine ⟨"x \n+".toList, "x +\r".toList, gap_self, gap_space, ?_⟩
    refine .same 'x' (.run (by decide) (by decide) ⟨['\n'], rfl, by simp [Blank]⟩ gap_self ?_)
    exact .same '+' (.ending gap_self ⟨['\r'], rfl, by simp [Blank]⟩)
  exact ⟨h, (parse_outcome_ignores_layout h).1⟩

end TypedLambda
