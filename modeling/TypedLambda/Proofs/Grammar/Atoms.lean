import TypedLambda.Proofs.Grammar.Lexical

/-!
# How atoms start

The alternatives of an atom are told apart by their first token. An alternative passes where its
token does not start (`passes_alternative_iff`), and hardly ever do two of these tokens start at one
place, so an atom is read by whichever alternative can read it (`yields_atom_of`). The places where
no atom and no operator starts are those where an expression can end (`Ends`).
-/

namespace TypedLambda.Derivation

variable {s : List Char}

/-- The kinds of atoms, by the token that they start with. -/
inductive Opening where
  | parens
  | boolean
  | number
  | identifier
  | conditional
  | function
deriving DecidableEq

namespace Opening

def all : List Opening := [parens, boolean, number, identifier, conditional, function]

theorem mem_all (o : Opening) : o ∈ all := by
  cases o <;> decide

/-- The alternative of an atom that starts in a way. -/
def alternative : Opening → Rule Phrase Expr
  | parens => .parens (.ref .expression)
  | boolean => Phrase.boolean.map Expr.lit
  | number => Phrase.number.map Expr.lit
  | identifier => Phrase.identifier.map Expr.var
  | conditional => Phrase.conditional
  | function => Phrase.function

/-- The first characters that an atom of the kind may have. -/
def heads : Opening → Char → Bool
  | parens, a => a == '('
  | boolean, a => a == 'T' || a == 'F'
  | number, a => a.isDigit
  | identifier, a => a.isLower
  | conditional, a => a == 'i'
  | function, a => a == '\\'

end Opening

/-- The first token of a kind of atoms starts a text. -/
def Opens : Opening → List Char → Prop
  | .parens, s => "(".toList <+: s
  | .boolean, s => Leads "True" s ∨ Leads "False" s
  | .number, s => ∃ digits, Begins digits (Numeral digits) s
  | .identifier, s => ∃ name, IsIdentifier name ∧ Begins name.toList (Stops NameChar) s
  | .conditional, s => Leads "if" s
  | .function, s => "\\".toList <+: s

theorem exists_eq_cons {a : Char} {chars : List Char} (h : a :: chars <+: s) :
    ∃ behind, s = a :: behind := by
  obtain ⟨behind, rfl⟩ := h
  exact ⟨_, rfl⟩

/-- Texts that start differently do not start the same text. -/
theorem not_starts_of_ne {a b : Char} {chars others : List Char} (h : a :: chars <+: s)
    (hne : a ≠ b) : ¬b :: others <+: s := by
  intro h'
  obtain ⟨behind, rfl⟩ := h
  obtain ⟨behind', h'⟩ := h'
  exact hne (List.cons.inj h').1.symm

theorem Opens.head {o : Opening} (h : Opens o s) : ∃ a ∈ s.head?, o.heads a = true := by
  cases o with
  | parens =>
    obtain ⟨behind, rfl⟩ := exists_eq_cons h
    exact ⟨_, rfl, rfl⟩
  | boolean =>
    rcases h with ⟨h, -⟩ | ⟨h, -⟩
    · obtain ⟨behind, rfl⟩ := exists_eq_cons h
      exact ⟨_, rfl, rfl⟩
    · obtain ⟨behind, rfl⟩ := exists_eq_cons h
      exact ⟨_, rfl, rfl⟩
  | number =>
    obtain ⟨digits, hp, hn⟩ := h
    obtain ⟨first, others, rfl, hdigit⟩ := hn.head_isDigit
    obtain ⟨behind, rfl⟩ := exists_eq_cons hp
    exact ⟨_, rfl, hdigit⟩
  | identifier =>
    obtain ⟨name, ⟨⟨first, others, hname, hlower, -⟩, -⟩, hp, -⟩ := h
    rw [hname] at hp
    obtain ⟨behind, rfl⟩ := exists_eq_cons hp
    exact ⟨_, rfl, hlower⟩
  | conditional =>
    obtain ⟨behind, rfl⟩ := exists_eq_cons h.1
    exact ⟨_, rfl, rfl⟩
  | function =>
    obtain ⟨behind, rfl⟩ := exists_eq_cons h
    exact ⟨_, rfl, rfl⟩

theorem isLower_eq_false_of_isDigit {a : Char} (h : a.isDigit = true) : a.isLower = false := by
  have h9 : a.val ≤ '9'.val := of_decide_eq_true (Bool.and_eq_true_iff.mp h).2
  have ha : ¬ 'a'.val ≤ a.val := by
    rw [UInt32.le_iff_toNat_le] at h9 ⊢
    exact Nat.not_le.mpr (Nat.lt_of_le_of_lt h9 (by decide))
  exact Bool.and_eq_false_iff.mpr (Or.inl (decide_eq_false ha))

/-- Only names and the word of conditionals can have the same first character. -/
theorem Opening.eq_of_heads {o o' : Opening} {a : Char} (h : o.heads a = true)
    (h' : o'.heads a = true) :
    o = o' ∨ o = identifier ∧ o' = conditional ∨ o = conditional ∧ o' = identifier := by
  have hdigit : a.isDigit = true → ¬(a = 'T' ∨ a = 'F') := by
    rintro hd (rfl | rfl) <;> cases hd
  have hlower : a.isLower = true → ¬(a = 'T' ∨ a = 'F') := by
    rintro hl (rfl | rfl) <;> cases hl
  have hboth : a.isDigit = true → a.isLower = false := isLower_eq_false_of_isDigit
  cases o <;> cases o' <;> simp_all [heads]

/-! ## Where an alternative passes -/

section

variable {call : {α : Type} → Phrase α → Parser α} {c stop : Cursor}

theorem passes_boolean_iff :
    (Phrase.boolean.denote call).Passes c ↔ ¬(Leads "True" c.rest ∨ Leads "False" c.rest) := by
  rw [Phrase.boolean, Rule.passes_spaced_iff, Rule.denote_oneOf, Parser.passes_oneOf_iff, not_or]
  simp only [List.map_cons, List.map_nil, List.forall_mem_cons, Rule.passes_map_iff]
  refine ⟨fun h => ⟨passes_keyword_iff.mp h.1, passes_keyword_iff.mp h.2.1⟩, fun h => ?_⟩
  exact ⟨passes_keyword_iff.mpr h.1, passes_keyword_iff.mpr h.2, fun _ hq => by cases hq⟩

theorem passes_number_iff :
    (Phrase.number.denote call).Passes c ↔ ¬∃ digits, Begins digits (Numeral digits) c.rest := by
  rw [Phrase.number, Rule.passes_map_iff, Rule.passes_spaced_iff]
  constructor
  · rintro h ⟨digits, hbegins⟩
    exact (yields_literal_iff.mpr ⟨digits, rfl, hbegins, rfl⟩).not_passes h
  · intro h
    refine Parser.passes_int_of_not_yields fun n stop hint => h ?_
    obtain ⟨digits, -, hbegins, -⟩ :=
      yields_literal_iff.mp (Parser.yields_backtrackable_iff.mpr hint)
    exact ⟨digits, hbegins⟩

/-- A variable is passed over where no identifier begins; reserved words are none. -/
theorem passes_identifier_iff :
    (Phrase.identifier.denote call).Passes c ↔
      ¬∃ name, IsIdentifier name ∧ Begins name.toList (Stops NameChar) c.rest := by
  rw [Phrase.identifier, Rule.passes_spaced_iff]
  constructor
  · rintro h ⟨name, hid, hbegins⟩
    exact (yields_identifier_iff.mpr ⟨hid, hbegins, rfl⟩).not_passes h
  · intro h
    refine Parser.passes_name_of_not_yields fun name stop hname => h ?_
    obtain ⟨hid, hbegins, -⟩ := yields_identifier_iff.mp hname
    exact ⟨name, hid, hbegins⟩

theorem progressive_word {text : String} (hne : text ≠ "") :
    ((Phrase.word text).denote call).Progressive :=
  (Parser.progressive_token hne _ _).bind

theorem passes_conditional_iff : (Phrase.conditional.denote call).Passes c ↔ ¬Leads "if" c.rest :=
  (progressive_word (by decide)).passes_bind_iff.trans
    (Rule.passes_spaced_iff.trans passes_keyword_iff)

theorem passes_function_iff : (Phrase.function.denote call).Passes c ↔ ¬"\\".toList <+: c.rest :=
  (Rule.progressive_sign (by decide)).passes_bind_iff.trans Rule.passes_sign_iff

/-- **An alternative of an atom passes where its first token does not start.** -/
theorem passes_alternative_iff (o : Opening) :
    (o.alternative.denote call).Passes c ↔ ¬Opens o c.rest := by
  cases o with
  | parens => exact Rule.passes_parens_iff
  | boolean => exact Rule.passes_map_iff.trans passes_boolean_iff
  | number => exact Rule.passes_map_iff.trans passes_number_iff
  | identifier => exact Rule.passes_map_iff.trans passes_identifier_iff
  | conditional => exact passes_conditional_iff
  | function => exact passes_function_iff

/-- An atom is a choice between the kinds of atoms, in a fixed order. -/
theorem denote_atom :
    Phrase.atom.denote call
      = Parser.oneOf (Opening.all.map fun o => o.alternative.denote call) :=
  Rule.denote_oneOf call _

/-- An atom is passed over exactly where nothing that starts one is found. -/
theorem passes_atom_iff : (Phrase.atom.denote call).Passes c ↔ ∀ o, ¬Opens o c.rest := by
  rw [denote_atom, Parser.passes_oneOf_iff]
  constructor
  · intro h o
    exact passes_alternative_iff o |>.mp (h _ (List.mem_map_of_mem o.mem_all))
  · intro h p hp
    obtain ⟨o, -, rfl⟩ := List.mem_map.mp hp
    exact (passes_alternative_iff o).mpr (h o)

/-- An atom is read by one of its alternatives. -/
theorem exists_yields_of_atom {e : Expr} (h : (Phrase.atom.denote call).Yields c e stop) :
    ∃ o : Opening, (o.alternative.denote call).Yields c e stop := by
  rw [denote_atom] at h
  obtain ⟨before, p, after, heq, -, hp⟩ := Parser.yields_oneOf_iff.mp h
  have hmem : p ∈ Opening.all.map fun o => o.alternative.denote call := by simp [heq]
  obtain ⟨o, -, rfl⟩ := List.mem_map.mp hmem
  exact ⟨o, hp⟩

/-- An alternative that succeeds has found the token that it starts with. -/
theorem opens_of_alternative {e : Expr} {o : Opening}
    (h : (o.alternative.denote call).Yields c e stop) : Opens o c.rest :=
  Classical.not_not.mp fun hnone => h.not_passes ((passes_alternative_iff o).mpr hnone)

/-- The alternatives in the order in which they are tried. -/
theorem Opening.all_split (o : Opening) :
    ∃ before after, all = before ++ o :: after ∧ o ∉ before ∧
      (o = identifier → conditional ∉ before) := by
  cases o with
  | parens => exact ⟨[], _, rfl, by decide, by decide⟩
  | boolean => exact ⟨[parens], _, rfl, by decide, by decide⟩
  | number => exact ⟨[parens, boolean], _, rfl, by decide, by decide⟩
  | identifier => exact ⟨[parens, boolean, number], _, rfl, by decide, by decide⟩
  | conditional => exact ⟨[parens, boolean, number, identifier], _, rfl, by decide, by decide⟩
  | function =>
    exact ⟨[parens, boolean, number, identifier, conditional], _, rfl, by decide, by decide⟩

/--
**What an alternative reads is read as an atom.** The one exception is the word of conditionals when
a prime follows it, which is an identifier.
-/
theorem yields_atom_of {e : Expr} (o : Opening)
    (h : (o.alternative.denote call).Yields c e stop)
    (hname : o = .conditional → ¬Opens .identifier c.rest) :
    (Phrase.atom.denote call).Yields c e stop := by
  obtain ⟨before, after, hall, hnot, hcond⟩ := o.all_split
  rw [denote_atom, hall, List.map_append, List.map_cons, Parser.yields_oneOf_iff]
  refine ⟨_, _, _, rfl, fun p hp => ?_, h⟩
  obtain ⟨o', hmem, rfl⟩ := List.mem_map.mp hp
  rw [passes_alternative_iff]
  intro ho'
  -- An earlier alternative that starts here too would start with the same character.
  obtain ⟨a, ha, hhead⟩ := (opens_of_alternative h).head
  obtain ⟨a', ha', hhead'⟩ := ho'.head
  obtain rfl : a = a' := Option.mem_unique ha ha'
  rcases Opening.eq_of_heads hhead hhead' with rfl | ⟨rfl, rfl⟩ | ⟨rfl, rfl⟩
  · exact hnot hmem
  · exact hcond rfl hmem
  · exact hname rfl ho'

/-! ## What the alternatives read -/

theorem yields_boolean_iff {literal : Literal} :
    (Phrase.boolean.denote call).Yields c literal stop ↔
      ∃ b, literal = .bool b ∧
        ((Phrase.word (Literal.bool b).text).denote call).Yields c () stop := by
  rw [Phrase.boolean, Rule.yields_spaced_iff, Rule.denote_oneOf]
  constructor
  · rintro ⟨mid, h, rfl⟩
    rcases Parser.yields_orElse_iff.mp h with h | ⟨-, h⟩
    · obtain ⟨u, hk, rfl⟩ := Rule.yields_map_iff.mp h
      exact ⟨true, rfl, Rule.yields_spaced_iff.mpr ⟨mid, hk, rfl⟩⟩
    · rcases Parser.yields_orElse_iff.mp h with h | ⟨-, h⟩
      · obtain ⟨u, hk, rfl⟩ := Rule.yields_map_iff.mp h
        exact ⟨false, rfl, Rule.yields_spaced_iff.mpr ⟨mid, hk, rfl⟩⟩
      · exact absurd h Parser.not_yields_nothing
  · rintro ⟨b, rfl, h⟩
    obtain ⟨mid, hk, rfl⟩ := Rule.yields_spaced_iff.mp h
    refine ⟨mid, ?_, rfl⟩
    have hmap : (((Rule.keyword (Literal.bool b).text).map fun _ => Literal.bool b).denote
        call).Yields c (.bool b) mid := Rule.yields_map_iff.mpr ⟨(), hk, rfl⟩
    cases b with
    | true => exact Parser.yields_orElse_iff.mpr (Or.inl hmap)
    | false =>
      refine Parser.yields_orElse_iff.mpr (Or.inr ⟨Rule.passes_map_iff.mpr ?_,
        Parser.yields_orElse_iff.mpr (Or.inl hmap)⟩)
      exact passes_keyword_iff.mpr fun htrue =>
        not_starts_of_ne (yields_keyword_iff.mp hk).1.1 (by decide) htrue.1

theorem leads_of_yields {text : String} {u : Unit}
    (h : ((Phrase.word text).denote call).Yields c u stop) : Leads text c.rest := by
  obtain ⟨mid, hk, -⟩ := Rule.yields_spaced_iff.mp h
  exact (yields_keyword_iff.mp hk).1

/-- The alternatives of an atomic type exclude each other. -/
theorem yields_typeAtom_iff {type : Ty} :
    (Phrase.typeAtom.denote call).Yields c type stop ↔
      ((Rule.parens (.ref Phrase.type)).denote call).Yields c type stop ∨
      ((Phrase.word "Int").denote call).Yields c () stop ∧ type = .int ∨
      ((Phrase.word "Bool").denote call).Yields c () stop ∧ type = .bool := by
  constructor
  · intro h
    rcases Parser.yields_orElse_iff.mp h with h | ⟨-, h⟩
    · exact Or.inl h
    rcases Parser.yields_orElse_iff.mp h with h | ⟨-, h⟩
    · obtain ⟨u, hw, rfl⟩ := Rule.yields_map_iff.mp h
      exact Or.inr (Or.inl ⟨hw, rfl⟩)
    rcases Parser.yields_orElse_iff.mp h with h | ⟨-, h⟩
    · obtain ⟨u, hw, rfl⟩ := Rule.yields_map_iff.mp h
      exact Or.inr (Or.inr ⟨hw, rfl⟩)
    · exact absurd h Parser.not_yields_nothing
  · rintro (h | ⟨h, rfl⟩ | ⟨h, rfl⟩)
    · exact Parser.yields_orElse_iff.mpr (Or.inl h)
    · have hparens : ((Rule.parens (.ref Phrase.type)).denote call).Passes c :=
        Rule.passes_parens_iff.mpr (not_starts_of_ne (leads_of_yields h).1 (by decide))
      refine Parser.yields_orElse_iff.mpr (Or.inr ⟨hparens, Parser.yields_orElse_iff.mpr ?_⟩)
      exact Or.inl (Rule.yields_map_iff.mpr ⟨(), h, rfl⟩)
    · have hparens : ((Rule.parens (.ref Phrase.type)).denote call).Passes c :=
        Rule.passes_parens_iff.mpr (not_starts_of_ne (leads_of_yields h).1 (by decide))
      have hint : ((Phrase.word "Int").denote call).Passes c :=
        Rule.passes_spaced_iff.mpr (passes_keyword_iff.mpr fun hint =>
          not_starts_of_ne (leads_of_yields h).1 (by decide) hint.1)
      refine Parser.yields_orElse_iff.mpr (Or.inr ⟨hparens, Parser.yields_orElse_iff.mpr ?_⟩)
      refine Or.inr ⟨Rule.passes_map_iff.mpr hint, Parser.yields_orElse_iff.mpr (Or.inl ?_)⟩
      exact Rule.yields_map_iff.mpr ⟨(), h, rfl⟩

theorem yields_conditional_iff {e : Expr} :
    (Phrase.conditional.denote call).Yields c e stop ↔
      ∃ c₁ c₂ c₃ c₄ c₅ condition consequent alternative,
        ((Phrase.word "if").denote call).Yields c () c₁ ∧
        (call Phrase.expression).Yields c₁ condition c₂ ∧
        ((Phrase.word "then").denote call).Yields c₂ () c₃ ∧
        (call Phrase.expression).Yields c₃ consequent c₄ ∧
        ((Phrase.word "else").denote call).Yields c₄ () c₅ ∧
        (call Phrase.expression).Yields c₅ alternative stop ∧
        e = .ite condition consequent alternative := by
  constructor
  · intro h
    obtain ⟨u₁, c₁, h₁, h⟩ := Parser.yields_bind_iff.mp h
    obtain ⟨condition, c₂, h₂, h⟩ := Parser.yields_bind_iff.mp h
    obtain ⟨u₃, c₃, h₃, h⟩ := Parser.yields_bind_iff.mp h
    obtain ⟨consequent, c₄, h₄, h⟩ := Parser.yields_bind_iff.mp h
    obtain ⟨u₅, c₅, h₅, h⟩ := Parser.yields_bind_iff.mp h
    obtain ⟨alternative, c₆, h₆, h⟩ := Parser.yields_bind_iff.mp h
    obtain ⟨rfl, rfl⟩ := Parser.yields_succeed_iff.mp h
    exact ⟨c₁, c₂, c₃, c₄, c₅, condition, consequent, alternative, h₁, h₂, h₃, h₄, h₅, h₆, rfl⟩
  · rintro ⟨c₁, c₂, c₃, c₄, c₅, condition, consequent, alternative, h₁, h₂, h₃, h₄, h₅, h₆, rfl⟩
    exact Parser.gives_bind h₁ (Parser.gives_bind h₂ (Parser.gives_bind h₃ (Parser.gives_bind h₄
      (Parser.gives_bind h₅ (Parser.gives_bind h₆ (Parser.yields_succeed_iff.mpr ⟨rfl, rfl⟩))))))

theorem yields_function_iff {e : Expr} :
    (Phrase.function.denote call).Yields c e stop ↔
      ∃ c₁ c₂ c₃ c₄ c₅ param type body,
        ((Phrase.sign "\\").denote call).Yields c () c₁ ∧
        (Phrase.identifier.denote call).Yields c₁ param c₂ ∧
        ((Phrase.sign ":").denote call).Yields c₂ () c₃ ∧
        (call Phrase.type).Yields c₃ type c₄ ∧
        ((Phrase.sign ".").denote call).Yields c₄ () c₅ ∧
        (call Phrase.expression).Yields c₅ body stop ∧ e = .lam param type body := by
  constructor
  · intro h
    obtain ⟨u₁, c₁, h₁, h⟩ := Parser.yields_bind_iff.mp h
    obtain ⟨param, c₂, h₂, h⟩ := Parser.yields_bind_iff.mp h
    obtain ⟨u₃, c₃, h₃, h⟩ := Parser.yields_bind_iff.mp h
    obtain ⟨type, c₄, h₄, h⟩ := Parser.yields_bind_iff.mp h
    obtain ⟨u₅, c₅, h₅, h⟩ := Parser.yields_bind_iff.mp h
    obtain ⟨body, c₆, h₆, h⟩ := Parser.yields_bind_iff.mp h
    obtain ⟨rfl, rfl⟩ := Parser.yields_succeed_iff.mp h
    exact ⟨c₁, c₂, c₃, c₄, c₅, param, type, body, h₁, h₂, h₃, h₄, h₅, h₆, rfl⟩
  · rintro ⟨c₁, c₂, c₃, c₄, c₅, param, type, body, h₁, h₂, h₃, h₄, h₅, h₆, rfl⟩
    exact Parser.gives_bind h₁ (Parser.gives_bind h₂ (Parser.gives_bind h₃ (Parser.gives_bind h₄
      (Parser.gives_bind h₅ (Parser.gives_bind h₆ (Parser.yields_succeed_iff.mpr ⟨rfl, rfl⟩))))))

end

/-! ## Where an expression can end -/

/-- No layout, atom or operator starts here, so an expression does not go on. -/
structure Ends (s : List Char) : Prop where
  blank : Stops Blank s
  opens : ∀ o, ¬Opens o s
  ops : ∀ op : Op, ¬op.text.toList <+: s

theorem not_opens_of_head {a : Char} (ha : a ∈ s.head?) (h : ∀ o : Opening, o.heads a = false) :
    ∀ o, ¬Opens o s := by
  intro o ho
  obtain ⟨a', ha', hhead⟩ := ho.head
  rw [Option.mem_unique ha' ha, h o] at hhead
  cases hhead

/-- No atom starts where an operator does. -/
theorem not_opens_of_op {op : Op} (h : op.text.toList <+: s) : ∀ o, ¬Opens o s := by
  cases op <;> obtain ⟨behind, rfl⟩ := exists_eq_cons h <;>
    exact not_opens_of_head rfl (by rintro (_ | _) <;> rfl)

/-- The characters of names in front of a text are told by the text. -/
theorem takeWhile_of_begins {chars : List Char} (h : Begins chars (Stops NameChar) s)
    (hchars : ∀ a ∈ chars, NameChar a) : s.takeWhile Phrase.identifierRules.inner = chars := by
  obtain ⟨⟨behind, rfl⟩, hf⟩ := h
  rw [List.drop_left] at hf
  exact takeWhile_append (fun a ha => inner_iff.mpr (hchars a ha)) (hf.mono fun a => inner_iff.mp)

theorem IsIdentifier.nameChar {name : String} (h : IsIdentifier name) :
    ∀ a ∈ name.toList, NameChar a := by
  obtain ⟨⟨first, others, hname, hlower, hothers⟩, -⟩ := h
  have hfirst : (first.isUpper || first.isLower || first.isDigit) = true := by simp [hlower]
  rw [hname, List.forall_mem_cons]
  exact ⟨Or.inl hfirst, hothers⟩

/-- A reserved word is no identifier. -/
theorem not_opens_identifier {text : String} {rest : List Char} (h : Word text s rest)
    (hchars : text.toList.all Phrase.identifierRules.inner = true)
    (hres : text ∈ ["True", "False", "if", "then", "else", "fi"]) : ¬Opens .identifier s := by
  rintro ⟨name, hid, hbegins⟩
  have heq : name.toList = text.toList := by
    rw [← takeWhile_of_begins hbegins hid.nameChar, ← takeWhile_of_begins h.begins fun a ha =>
      inner_iff.mp (List.all_eq_true.mp hchars a ha)]
  exact hid.2 (String.toList_inj.mp heq ▸ hres)

theorem not_op_of_head {a : Char} (ha : a ∈ s.head?)
    (h : ∀ op : Op, a ∉ op.text.toList.head?) (op : Op) : ¬op.text.toList <+: s := by
  rintro ⟨behind, rfl⟩
  have hop := h op
  obtain ⟨first, others, htext⟩ := List.exists_cons_of_ne_nil (visible_text op).ne_nil
  rw [htext] at ha hop
  exact hop ha

theorem ends_nil : Ends [] := by
  refine ⟨stops_nil, fun o ho => ?_, fun op h => ?_⟩
  · obtain ⟨a, ha, -⟩ := ho.head
    cases ha
  · exact (visible_text op).ne_nil (List.prefix_nil.mp h)

/-- An expression ends before a closing parenthesis. -/
theorem ends_of_sign {rest : List Char} (h : Sign ")" s rest) : Ends s := by
  obtain ⟨behind, hs⟩ := exists_eq_cons h.begins.1
  have hhead : ')' ∈ s.head? := by rw [hs]; rfl
  refine ⟨h.advances.blank, not_opens_of_head hhead ?_, not_op_of_head hhead ?_⟩
  · rintro (_ | _) <;> rfl
  · rintro (_ | _) <;> decide

/-- The words between the parts of a conditional end an expression. -/
theorem ends_of_word {text : String} {rest : List Char} (h : Word text s rest)
    (htext : text = "then" ∨ text = "else") : Ends s := by
  have hhead : ∃ a ∈ s.head?, a = 't' ∨ a = 'e' := by
    rcases htext with rfl | rfl <;> obtain ⟨behind, rfl⟩ := exists_eq_cons h.begins.1
    · exact ⟨_, rfl, Or.inl rfl⟩
    · exact ⟨_, rfl, Or.inr rfl⟩
  have hnot : ¬Opens .identifier s := by
    rcases htext with rfl | rfl <;> exact not_opens_identifier h (by decide) (by decide)
  have hblank : Stops Blank s := by
    rcases htext with rfl | rfl <;> exact h.advances.blank
  obtain ⟨a, ha, hte⟩ := hhead
  refine ⟨hblank, fun o ho => ?_, not_op_of_head ha ?_⟩
  · obtain ⟨a', ha', hheads⟩ := ho.head
    obtain rfl : a' = a := Option.mem_unique ha' ha
    rcases hte with rfl | rfl <;> cases o <;> first | exact hnot ho | cases hheads
  · rcases hte with rfl | rfl <;> rintro (_ | _) <;> decide

end TypedLambda.Derivation
