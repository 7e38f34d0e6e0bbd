import TypedLambda.Proofs.Grammar.Completeness

/-!
# The language of types

The types of the language are described here in two layers, as a text of tokens and as a grammar of
tokens, and no text is read:

```text
type        := atomic type | atomic type "->" type
atomic type := "Int" | "Bool" | "(" type ")"
```

Layout may follow every token, and a word must not run on into a letter, a digit or an underscore.
Reading a type accepts exactly the texts so described. In `DerivesType` a word must not run on into
a prime either, but as no token starts with a prime, both say the same of a whole text.
-/

namespace TypedLambda.Derivation

/-! ## Tokens -/

/-- The tokens of types. -/
inductive TypeToken where
  | int
  | bool
  | arrow
  | opening
  | closing
deriving DecidableEq

namespace TypeToken

/-- The spelling of a token. -/
def text : TypeToken → String
  | int => "Int"
  | bool => "Bool"
  | arrow => "->"
  | opening => "("
  | closing => ")"

/-- Whether the token is a word and not punctuation. -/
def isWord : TypeToken → Bool
  | int | bool => true
  | arrow | opening | closing => false

/-- A word must not run on; anything may stand right behind punctuation. -/
def MayPrecede (token : TypeToken) (behind : List Char) : Prop :=
  token.isWord = true → Stops (fun a => a.isAlphanum = true ∨ a = '_') behind

end TypeToken

/-- Tokens in a row at the start of a text, each with any amount of layout behind it. -/
inductive Spelled : List TypeToken → List Char → List Char → Prop
  | nil {s : List Char} : Spelled [] s s
  | cons {token : TypeToken} {tokens : List TypeToken} {s s₁ rest : List Char}
    (h : Token token.text.toList token.MayPrecede s s₁) (hs : Spelled tokens s₁ rest) :
    Spelled (token :: tokens) s rest

/-- Tokens that make up a type; an atomic one is no arrow outside parentheses. -/
inductive TypePhrase : (atomic : Bool) → List TypeToken → Ty → Prop
  | int : TypePhrase true [.int] .int
  | bool : TypePhrase true [.bool] .bool
  | parens {tokens : List TypeToken} {type : Ty} (h : TypePhrase false tokens type) :
    TypePhrase true ([.opening] ++ tokens ++ [.closing]) type
  | atom {tokens : List TypeToken} {type : Ty} (h : TypePhrase true tokens type) :
    TypePhrase false tokens type
  | arrow {left right : List TypeToken} {source target : Ty} (hs : TypePhrase true left source)
    (ht : TypePhrase false right target) :
    TypePhrase false (left ++ [.arrow] ++ right) (.arrow source target)

/-- The whole of a text, after layout at its start, is a type. -/
def TypeText (s : List Char) (type : Ty) : Prop :=
  ∃ start tokens, Gap s start ∧ Spelled tokens start [] ∧ TypePhrase false tokens type

variable {s rest : List Char} {token : TypeToken} {type : Ty} {atomic : Bool}

/-! ## Texts of tokens -/

theorem spelled_of_word (h : Word token.text s rest) : Spelled [token] s rest := by
  obtain ⟨behind, hs, hstops, hg⟩ := h
  exact .cons ⟨behind, hs, fun _ => hstops.mono fun a ha => ha.imp_right Or.inl, hg⟩ .nil

theorem spelled_of_sign (hsign : token.isWord = false) (h : Sign token.text s rest) :
    Spelled [token] s rest := by
  obtain ⟨behind, hs, -, hg⟩ := h
  refine .cons ⟨behind, hs, fun hword => ?_, hg⟩ .nil
  rw [hsign] at hword
  cases hword

theorem Spelled.single (h : Spelled [token] s rest) :
    Token token.text.toList token.MayPrecede s rest := by
  cases h with
  | cons h hs =>
    cases hs
    exact h

theorem Spelled.sign (h : Spelled [token] s rest) : Sign token.text s rest := by
  obtain ⟨behind, hs, -, hg⟩ := h.single
  exact ⟨behind, hs, trivial, hg⟩

/-- A word that is spelled out is a word of the grammar if no prime follows. -/
theorem Spelled.word (hword : token.isWord = true) (h : Spelled [token] s rest)
    (hprime : Stops Prime rest) : Word token.text s rest := by
  obtain ⟨behind, hs, hstops, hg⟩ := h.single
  refine word_of_token ⟨behind, hs, hstops hword, hg⟩ (fun a ha => ?_) hprime
  exact or_assoc.mpr ha

/-- Tokens in a row are spelled one part behind the other. -/
theorem spelled_append_iff {left right : List TypeToken} :
    Spelled (left ++ right) s rest ↔ ∃ mid, Spelled left s mid ∧ Spelled right mid rest := by
  induction left generalizing s with
  | nil =>
    constructor
    · exact fun h => ⟨s, .nil, h⟩
    · rintro ⟨_, hleft, hright⟩
      cases hleft
      exact hright
  | cons token left ih =>
    constructor
    · intro h
      cases h with
      | cons htoken hs =>
        obtain ⟨mid, hleft, hright⟩ := ih.mp hs
        exact ⟨mid, .cons htoken hleft, hright⟩
    · rintro ⟨mid, hleft, hright⟩
      cases hleft with
      | cons htoken hs => exact .cons htoken (ih.mpr ⟨mid, hs, hright⟩)

/-! ## The two descriptions -/

/-- What is derived is spelled by the tokens of a type. -/
theorem DerivesType.exists_spelled (h : DerivesType atomic s type rest) :
    ∃ tokens, Spelled tokens s rest ∧ TypePhrase atomic tokens type := by
  induction h with
  | int h =>
    have hword : Spelled [.int] _ _ := spelled_of_word h
    exact ⟨_, hword, .int⟩
  | bool h =>
    have hword : Spelled [.bool] _ _ := spelled_of_word h
    exact ⟨_, hword, .bool⟩
  | parens ho _ hc ih =>
    obtain ⟨tokens, hs, hp⟩ := ih
    have hopen : Spelled [.opening] _ _ := spelled_of_sign rfl ho
    have hclose : Spelled [.closing] _ _ := spelled_of_sign rfl hc
    have hinner := spelled_append_iff.mpr ⟨_, hopen, hs⟩
    exact ⟨_, spelled_append_iff.mpr ⟨_, hinner, hclose⟩, .parens hp⟩
  | atom _ ih =>
    obtain ⟨tokens, hs, hp⟩ := ih
    exact ⟨tokens, hs, .atom hp⟩
  | arrow _ ha _ ihs iht =>
    obtain ⟨left, hleft, hsource⟩ := ihs
    obtain ⟨right, hright, htarget⟩ := iht
    have harrow : Spelled [.arrow] _ _ := spelled_of_sign rfl ha
    have hstart := spelled_append_iff.mpr ⟨_, hleft, harrow⟩
    exact ⟨_, spelled_append_iff.mpr ⟨_, hstart, hright⟩, .arrow hsource htarget⟩

/-- The tokens of a type are derived, wherever no prime follows them. -/
theorem TypePhrase.derivesType {tokens : List TypeToken} (h : TypePhrase atomic tokens type)
    (hs : Spelled tokens s rest) (hprime : Stops Prime rest) : DerivesType atomic s type rest := by
  induction h generalizing s rest with
  | int =>
    have hword := hs.word rfl hprime
    exact .int hword
  | bool =>
    have hword := hs.word rfl hprime
    exact .bool hword
  | parens _ ih =>
    obtain ⟨s₂, hinner, hclose⟩ := spelled_append_iff.mp hs
    obtain ⟨s₁, hopen, htype⟩ := spelled_append_iff.mp hinner
    have hclosing : Sign ")" s₂ rest := hclose.sign
    exact .parens hopen.sign (ih htype hclosing.advances.prime) hclosing
  | atom _ ih => exact .atom (ih hs hprime)
  | arrow _ _ ihs iht =>
    obtain ⟨s₂, hstart, htarget⟩ := spelled_append_iff.mp hs
    obtain ⟨s₁, hsource, harrow⟩ := spelled_append_iff.mp hstart
    have hsign : Sign "->" s₁ s₂ := harrow.sign
    exact .arrow (ihs hsource hsign.advances.prime) hsign (iht htarget hprime)

/-- The tokens of a text are a type if the grammar derives one. -/
theorem typeText_iff :
    TypeText s type ↔ ∃ start, Gap s start ∧ DerivesType false start type [] := by
  constructor
  · rintro ⟨start, tokens, hgap, hs, hp⟩
    exact ⟨start, hgap, hp.derivesType hs stops_nil⟩
  · rintro ⟨start, hgap, hd⟩
    obtain ⟨tokens, hs, hp⟩ := hd.exists_spelled
    exact ⟨start, tokens, hgap, hs, hp⟩

/-! ## Reading -/

theorem parseType_eq_ok_iff_typeText {source : String} :
    Ty.parse source = .ok type ↔ TypeText source.toList type :=
  parseType_eq_ok_iff.trans typeText_iff.symm

/--
**Reading a type accepts exactly the texts of types.** The type read is the only one that the text
makes up, and an error is reported exactly if there is none.
-/
theorem parse_accepts_exactly_types (source : String) :
    (∀ type, Ty.parse source = .ok type ↔ TypeText source.toList type) ∧
      ((∃ error, Ty.parse source = .error error) ↔ ¬∃ type, TypeText source.toList type) := by
  refine ⟨fun type => parseType_eq_ok_iff_typeText, ?_⟩
  constructor
  · rintro ⟨error, herror⟩ ⟨type, htype⟩
    rw [parseType_eq_ok_iff_typeText.mpr htype] at herror
    cases herror
  · intro hnone
    cases hparse : Ty.parse source with
    | ok type => exact absurd ⟨type, parseType_eq_ok_iff_typeText.mp hparse⟩ hnone
    | error error => exact ⟨error, rfl⟩

end TypedLambda.Derivation
