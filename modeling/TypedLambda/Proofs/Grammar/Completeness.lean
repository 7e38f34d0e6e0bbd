import TypedLambda.Expr.Parse
import TypedLambda.Proofs.Grammar.Soundness

/-!
# What is derived is read

Every derivation leads the parser to its expression, provided that names may be nested deeper than
characters are left and that what follows the phrase cannot go on with it. A chain of operators is
collected as a tree while it is derived, and the table then reads the tree.

**Main statement.** Reading accepts exactly the texts of the grammar and gives the expression that
they derive (`parse_eq_ok_iff`).
-/

namespace TypedLambda.Derivation

open Precedence

variable {c : Cursor} {s rest : List Char} {depth : Nat}
  {call : {α : Type} → Phrase α → Parser α}

/-- The names of the grammar read every phrase in a text shorter than a bound. -/
structure Complete (bound : Nat) (call : {α : Type} → Phrase α → Parser α) : Prop where
  type : ∀ {c : Cursor} {type rest}, c.rest.length < bound → DerivesType false c.rest type rest →
    Stops Blank rest → ¬"->".toList <+: rest → Leaves (call Phrase.type) c type rest
  expression : ∀ {c : Cursor} {e rest ending}, c.rest.length < bound →
    Derives (.operation 0) ending c.rest e rest → Ends rest →
    Leaves (call Phrase.expression) c e rest

/-! ## Parentheses -/

theorem leaves_parens {α : Type} {value : α} {r : Rule Phrase α} {s₁ s₂ : List Char}
    (ho : Sign "(" c.rest s₁) (hblank : Stops Blank s₁)
    (h : ∀ {c : Cursor}, c.rest = s₁ → Leaves (r.denote call) c value s₂) (hc : Sign ")" s₂ rest)
    (hb : Stops Blank rest) : Leaves ((Rule.parens r).denote call) c value rest := by
  obtain ⟨inner, hopen, hinner⟩ := leaves_sign ho hblank
  obtain ⟨mid, hvalue, rfl⟩ := h hinner
  obtain ⟨stop, hclose, hstop⟩ := leaves_sign hc hb
  rw [← skipLayout_of_stops hc.advances.blank] at hclose
  exact ⟨stop, Rule.yields_parens_iff.mpr ⟨inner, mid, hopen, hvalue, hclose⟩, hstop⟩

/-! ## Types -/

/-- What the derivation of a type leads the parser to. -/
def ReachesType (call : {α : Type} → Phrase α → Parser α) (c : Cursor) (type : Ty)
    (rest : List Char) : (atomic : Bool) → Prop
  | true => Leaves (Phrase.typeAtom.denote call) c type rest
  | false => Chained (Phrase.typeAtom.denote call) (· = arrow) c type rest

/-- By induction on its derivation, every type is read. -/
theorem Complete.reachesType (hs : Complete depth call) {atomic : Bool} {type : Ty}
    (h : DerivesType atomic s type rest) (hc : c.rest = s) (hlen : s.length ≤ depth)
    (hb : Stops Blank rest) : ReachesType call c type rest atomic := by
  induction h generalizing c with
  | int h =>
    subst hc
    obtain ⟨stop, hw, hstop⟩ := leaves_word h hb
    exact ⟨stop, yields_typeAtom_iff.mpr (Or.inr (Or.inl ⟨hw, rfl⟩)), hstop⟩
  | bool h =>
    subst hc
    obtain ⟨stop, hw, hstop⟩ := leaves_word h hb
    exact ⟨stop, yields_typeAtom_iff.mpr (Or.inr (Or.inr ⟨hw, rfl⟩)), hstop⟩
  | @parens s s₁ s₂ rest type ho ht hclose _ =>
    subst hc
    have hlt := ho.advances.length_lt
    have hparens : Leaves ((Rule.parens (.ref Phrase.type)).denote call) c type rest := by
      refine leaves_parens ho ht.advances.blank (fun hinner => ?_) hclose hb
      subst hinner
      exact hs.type (by omega) ht hclose.advances.blank
        (not_starts_of_ne hclose.begins.1 (by decide))
    obtain ⟨stop, hparens, hstop⟩ := hparens
    exact ⟨stop, yields_typeAtom_iff.mpr (Or.inl hparens), hstop⟩
  | atom ht ih =>
    subst hc
    exact .leaf (ih rfl hlen hb) (Nat.le_of_lt ht.advances.length_lt)
  | arrow hsource ha ht ihs iht =>
    subst hc
    have hlt := hsource.advances.length_lt
    have hlt' := ha.advances.length_lt
    -- The left part is atomic, so it is a chain without operators.
    have hleft : Chained _ (fun _ => False) c _ _ :=
      .leaf (ihs rfl hlen ha.advances.blank) (Nat.le_of_lt hlt)
    refine hleft.node arrow ha ht.advances.blank (fun hc => iht hc (by omega) hb) rfl
      (fun _ h => h.elim) ?_
    rintro _ rfl
    exact ⟨by decide, rfl⟩

/-! ## Expressions -/

/-- What the derivation of an expression leads the parser to. -/
def Reaches (call : {α : Type} → Phrase α → Parser α) (c : Cursor) (e : Expr) (rest : List Char) :
    Category → Prop
  | .atom => Leaves (Phrase.atom.denote call) c e rest
  | .application => ∃ function arguments mid stop,
    (Phrase.atom.denote call).Yields c function mid ∧
      Parser.Row (Phrase.atom.denote call) mid arguments stop ∧
      arguments.foldl .app function = e ∧ stop.rest = rest
  | .operation least => (∀ o, ¬Opens o rest) →
    Chained (Phrase.term.denote call) (fun op => ∃ o, op = ranked o ∧ least ≤ o.rank) c e rest

/-- A conditional is read where nothing goes on behind it. -/
theorem Complete.conditional (hs : Complete depth call) (hlen : c.rest.length ≤ depth)
    {s₁ s₂ s₃ s₄ s₅ : List Char} {ending₁ ending₂ ending₃ : Ending}
    {condition consequent alternative : Expr} (hi : Word "if" c.rest s₁)
    (hc : Derives (.operation 0) ending₁ s₁ condition s₂) (ht : Word "then" s₂ s₃)
    (hy : Derives (.operation 0) ending₂ s₃ consequent s₄) (he : Word "else" s₄ s₅)
    (hn : Derives (.operation 0) ending₃ s₅ alternative rest) (hends : Ends rest) :
    Leaves (Phrase.conditional.denote call) c (.ite condition consequent alternative) rest := by
  have hlt₁ := hi.advances.length_lt
  have hlt₂ := hc.advances.length_lt
  have hlt₃ := ht.advances.length_lt
  have hlt₄ := hy.advances.length_lt
  have hlt₅ := he.advances.length_lt
  obtain ⟨c₁, h₁, rfl⟩ := leaves_word hi hc.advances.blank
  obtain ⟨c₂, h₂, rfl⟩ := hs.expression (by omega) hc (ends_of_word ht (Or.inl rfl))
  obtain ⟨c₃, h₃, rfl⟩ := leaves_word ht hy.advances.blank
  obtain ⟨c₄, h₄, rfl⟩ := hs.expression (by omega) hy (ends_of_word he (Or.inr rfl))
  obtain ⟨c₅, h₅, rfl⟩ := leaves_word he hn.advances.blank
  obtain ⟨stop, h₆, hstop⟩ := hs.expression (by omega) hn hends
  exact ⟨stop, yields_conditional_iff.mpr ⟨c₁, c₂, c₃, c₄, c₅, condition, consequent, alternative,
    h₁, h₂, h₃, h₄, h₅, h₆, rfl⟩, hstop⟩

theorem Complete.function (hs : Complete depth call) (hlen : c.rest.length ≤ depth)
    {s₁ s₂ s₃ s₄ s₅ : List Char} {ending : Ending} {param : String} {type : Ty} {body : Expr}
    (hl : Sign "\\" c.rest s₁) (hp : Identifier param s₁ s₂) (hc : Sign ":" s₂ s₃)
    (ht : DerivesType false s₃ type s₄) (hd : Sign "." s₄ s₅)
    (hb : Derives (.operation 0) ending s₅ body rest) (hends : Ends rest) :
    Leaves (Phrase.function.denote call) c (.lam param type body) rest := by
  have hlt₁ := hl.advances.length_lt
  have hlt₂ := hp.advances.length_lt
  have hlt₃ := hc.advances.length_lt
  have hlt₄ := ht.advances.length_lt
  have hlt₅ := hd.advances.length_lt
  obtain ⟨c₁, h₁, rfl⟩ := leaves_sign hl hp.advances.blank
  obtain ⟨c₂, h₂, rfl⟩ := scans_identifier.complete hp hc.advances.blank
  obtain ⟨c₃, h₃, rfl⟩ := leaves_sign hc ht.advances.blank
  obtain ⟨c₄, h₄, rfl⟩ := hs.type (by omega) ht hd.advances.blank
    (not_starts_of_ne hd.begins.1 (by decide))
  obtain ⟨c₅, h₅, rfl⟩ := leaves_sign hd hb.advances.blank
  obtain ⟨stop, h₆, hstop⟩ := hs.expression (by omega) hb hends
  exact ⟨stop, yields_function_iff.mpr ⟨c₁, c₂, c₃, c₄, c₅, param, type, body, h₁, h₂, h₃, h₄, h₅,
    h₆, rfl⟩, hstop⟩

/-- An atom is read by the alternative of its kind, as no earlier one takes its place. -/
theorem leaves_atom {e : Expr} (o : Opening) (h : Leaves (o.alternative.denote call) c e rest)
    (hname : o = .conditional → ¬Opens .identifier c.rest) :
    Leaves (Phrase.atom.denote call) c e rest := by
  obtain ⟨stop, h, hstop⟩ := h
  exact ⟨stop, yields_atom_of o h hname, hstop⟩

theorem leaves_map {α β : Type} {r : Rule Phrase α} {f : α → β} {value : α}
    (h : Leaves (r.denote call) c value rest) :
    Leaves ((r.map f).denote call) c (f value) rest := by
  obtain ⟨stop, h, hstop⟩ := h
  exact ⟨stop, Rule.yields_map_iff.mpr ⟨value, h, rfl⟩, hstop⟩

theorem leaves_boolean {b : Bool} (h : Word (Literal.bool b).text c.rest rest)
    (hb : Stops Blank rest) : Leaves (Phrase.boolean.denote call) c (.bool b) rest := by
  obtain ⟨stop, hw, hstop⟩ := leaves_word h hb
  exact ⟨stop, yields_boolean_iff.mpr ⟨b, rfl, hw⟩, hstop⟩

/-- By induction on its derivation, every expression is read. -/
theorem Complete.reaches (hs : Complete depth call) {category : Category} {ending : Ending}
    {e : Expr} (h : Derives category ending s e rest) (hc : c.rest = s) (hlen : s.length ≤ depth)
    (hb : Stops Blank rest) (hends : ending = .trailing → Ends rest) :
    Reaches call c e rest category := by
  -- Phrases in parentheses, conditionals and functions are read by name: the induction hypotheses
  -- serve only the parts of a row and of a chain.
  induction h generalizing c with
  | parens ho he hclose _ =>
    subst hc
    have hlt := ho.advances.length_lt
    refine leaves_atom .parens
      (leaves_parens ho he.advances.blank (fun hinner => ?_) hclose hb) nofun
    subst hinner
    exact hs.expression (by omega) he (ends_of_sign hclose)
  | yes h =>
    subst hc
    exact leaves_atom .boolean (leaves_map (leaves_boolean h hb)) nofun
  | no h =>
    subst hc
    exact leaves_atom .boolean (leaves_map (leaves_boolean h hb)) nofun
  | number h =>
    subst hc
    exact leaves_atom .number (leaves_map (leaves_map (scans_number.complete h hb))) nofun
  | var h =>
    subst hc
    exact leaves_atom .identifier (leaves_map (scans_identifier.complete h hb)) nofun
  | ite hi hcond ht hy he hn _ _ _ =>
    subst hc
    exact leaves_atom .conditional (hs.conditional hlen hi hcond ht hy he hn (hends rfl))
      fun _ => not_opens_identifier hi (by decide) (by decide)
  | lam hl hp hcolon ht hd hbody _ =>
    subst hc
    exact leaves_atom .function (hs.function hlen hl hp hcolon ht hd hbody (hends rfl)) nofun
  | single _ ih =>
    obtain ⟨stop, h, hstop⟩ := ih hc hlen hb hends
    exact ⟨_, [], stop, stop, h, .nil, rfl, hstop⟩
  | apply hf ha ihf iha =>
    have hlt := hf.advances.length_lt
    obtain ⟨function, arguments, mid, place, hfirst, hrow, rfl, rfl⟩ :=
      ihf hc hlen ha.advances.blank nofun
    obtain ⟨stop, harg, rfl⟩ := iha rfl (by omega) hb hends
    refine ⟨function, arguments ++ [_], mid, stop, hfirst, hrow.concat harg ha.advances.length_lt,
      ?_, rfl⟩
    rw [List.foldl_append]
    rfl
  | operand h ih =>
    intro hopens
    obtain ⟨function, arguments, mid, stop, hfirst, hrow, rfl, rfl⟩ := ih hc hlen hb hends
    subst hc
    refine .leaf ⟨stop, Rule.yields_map_iff.mpr ⟨(function, arguments), ?_, rfl⟩, rfl⟩
      (Nat.le_of_lt h.advances.length_lt)
    exact Rule.yields_many1_iff.mpr ⟨mid, hfirst, hrow, passes_atom_iff.mpr hopens⟩
  | @join _ _ _ _ _ _ op _ _ hle hl ho hr ihl ihr =>
    intro hopens
    have hsign := ho.advances (visible_text op)
    have hlt := hl.advances.length_lt
    have hlt' := hsign.length_lt
    have hlhs := ihl hc hlen hsign.blank nofun (not_opens_of_op ho.begins.1)
    refine hlhs.node (ranked op) ho hr.advances.blank
      (fun hc => ihr hc (by omega) hb hends hopens) ⟨op, rfl, hle⟩ ?_ ?_
    · rintro _ ⟨o, rfl, hrank⟩
      have := op.rank_le_leftRank
      exact ⟨below_left_iff.mpr hrank, o, rfl, by omega⟩
    · rintro _ ⟨o, rfl, hrank⟩
      have := op.rank_le_rightRank
      exact ⟨below_right_iff.mpr hrank, o, rfl, by omega⟩

/-- **Whatever is derived is read** when names may be nested deeper than characters are left. -/
theorem complete_call (depth : Nat) : Complete depth (Phrase.grammar.call depth) := by
  induction depth with
  | zero => exact ⟨fun h => absurd h (Nat.not_lt_zero _), fun h => absurd h (Nat.not_lt_zero _)⟩
  | succ depth ih =>
    constructor
    · intro c type rest hlen h hb harrow
      have hchain := ih.reachesType h rfl (Nat.le_of_lt_succ hlen) hb
      rw [call_type]
      refine Chained.leaves legible_arrow hchain (fun op => listed_arrow_iff.mpr) fun op hop => ?_
      rw [listed_arrow_iff.mp hop]
      exact harrow
    · intro c e rest ending hlen h hends
      have hchain := ih.reaches h rfl (Nat.le_of_lt_succ hlen) hends.blank (fun _ => hends)
        hends.opens
      rw [call_expression]
      refine Chained.leaves legible_expressionLevels hchain ?_ fun op hop => ?_
      · rintro _ ⟨o, rfl, -⟩
        exact listed_expressionLevels_iff.mpr ⟨o, rfl⟩
      · obtain ⟨o, rfl⟩ := listed_expressionLevels_iff.mp hop
        exact hends.ops o

/-! ## Whole texts -/

/-- A run over a whole text succeeds if the rule does and leaves nothing. -/
theorem run_eq_ok_iff {α : Type} {r : Rule Phrase α} {source : String} {value : α} :
    Phrase.grammar.run depth r source = some (.ok value) ↔
      Leaves (r.denote (Phrase.grammar.call depth)) (.start source) value [] := by
  rw [Grammar.run, Option.map_eq_some_iff]
  constructor
  · rintro ⟨⟨step, stop⟩, h, hok⟩
    cases step with
    | good progress value' =>
      cases hok
      obtain ⟨mid, u, hr, hend⟩ := Rule.yields_skip_iff.mp ⟨progress, h⟩
      exact ⟨mid, hr, (Parser.yields_endOfInput_iff.mp hend).1⟩
    | bad progress problems => cases hok
  · rintro ⟨mid, hr, hend⟩
    have hskip : ((r.skip .endOfInput).denote (Phrase.grammar.call depth)).Yields (.start source)
        value mid :=
      Rule.yields_skip_iff.mpr ⟨mid, (), hr, Parser.yields_endOfInput_iff.mpr ⟨hend, rfl⟩⟩
    obtain ⟨progress, h⟩ := hskip
    exact ⟨_, h, rfl⟩

/-- Reading succeeds if the name of the grammar leaves nothing, behind layout at the start. -/
theorem read_eq_ok_iff {α : Type} {x : Phrase α} {source : String} {value : α} :
    x.read source = .ok value ↔
      Leaves (Phrase.grammar.call (source.length + 1) x) (Cursor.start source).skipLayout value
        [] := by
  have hget : x.read source = .ok value ↔
      Phrase.grammar.run (source.length + 1) x.whole source = some (.ok value) :=
    ⟨fun h => by rw [← h, x.run_whole],
      fun h => Option.some.inj ((x.run_whole source).symm.trans h)⟩
  rw [hget, run_eq_ok_iff]
  constructor
  · rintro ⟨stop, h, hstop⟩
    obtain ⟨u, mid, hs, hx⟩ := Rule.yields_skipLeft_iff.mp h
    obtain rfl := Rule.yields_spaces_iff.mp hs
    exact ⟨stop, hx, hstop⟩
  · rintro ⟨stop, hx, hstop⟩
    exact ⟨stop, Rule.yields_skipLeft_iff.mpr ⟨(), _, Rule.yields_spaces_iff.mpr rfl, hx⟩, hstop⟩

/-- A name of the grammar reads, up to the end of a text, exactly the texts of a language. -/
structure Describes {α : Type} (x : Phrase α) (Whole : List Char → α → Prop) : Prop where
  blank : ∀ {s value}, Whole s value → Stops Blank s
  sound : ∀ {depth c value}, Leaves (Phrase.grammar.call depth x) c value [] → Whole c.rest value
  complete : ∀ {depth c value}, c.rest.length < depth → Whole c.rest value →
    Leaves (Phrase.grammar.call depth x) c value []

/-- A text is read exactly if it is in the language, after layout at its start. -/
theorem Describes.read_eq_ok_iff {α : Type} {x : Phrase α} {Whole : List Char → α → Prop}
    (hx : Describes x Whole) {source : String} {value : α} :
    x.read source = .ok value ↔ ∃ start, Gap source.toList start ∧ Whole start value := by
  refine Derivation.read_eq_ok_iff.trans ?_
  constructor
  · intro h
    have hgap := gap_iff.mpr (Cursor.start source).rest_skipLayout.symm
    exact ⟨_, hgap.1, hx.sound h⟩
  · rintro ⟨start, hgap, hwhole⟩
    have hstart : (Cursor.start source).skipLayout.rest = start :=
      (Cursor.rest_skipLayout _).trans (gap_iff.mp ⟨hgap, hx.blank hwhole⟩)
    have hlen := hgap.length_le
    rw [String.length_toList] at hlen
    subst hstart
    exact hx.complete (by omega) hwhole

/-- Expressions are read exactly where they are derived. -/
theorem describes_expression :
    Describes .expression fun s e => ∃ ending, Derives (.operation 0) ending s e [] where
  blank := by
    rintro s e ⟨ending, hd⟩
    exact hd.advances.blank
  sound := by
    rintro depth c e ⟨stop, h, hstop⟩
    obtain ⟨⟨-, ending, -, hd⟩, -⟩ := (sound_call _).expression h
    rw [hstop] at hd
    exact ⟨ending, hd stops_nil⟩
  complete := by
    rintro depth c e hlen ⟨ending, hd⟩
    exact (complete_call _).expression hlen hd ends_nil

theorem describes_type : Describes .type fun s type => DerivesType false s type [] where
  blank := fun hd => hd.advances.blank
  sound := by
    rintro depth c type ⟨stop, h, hstop⟩
    obtain ⟨-, hd⟩ := (sound_call _).type h
    rw [hstop] at hd
    exact hd stops_nil
  complete := fun hlen hd => (complete_call _).type hlen hd stops_nil (by decide)

/-- The parser accepts the programs of the grammar, with their expressions. -/
theorem parse_eq_ok_iff {source : String} {e : Expr} :
    Expr.parse source = .ok e ↔ Program source.toList e := by
  refine describes_expression.read_eq_ok_iff.trans ?_
  simp only [Program, exists_and_left]

theorem parseType_eq_ok_iff {source : String} {type : Ty} :
    Ty.parse source = .ok type ↔
      ∃ start, Gap source.toList start ∧ DerivesType false start type [] :=
  describes_type.read_eq_ok_iff

/--
**Reading accepts exactly the texts of the grammar.** The expression read is the only one that the
text derives, and an error is reported exactly if there is none.
-/
theorem parse_accepts_exactly_programs (source : String) :
    (∀ e, Expr.parse source = .ok e ↔ Program source.toList e) ∧
      ((∃ error, Expr.parse source = .error error) ↔ ¬∃ e, Program source.toList e) := by
  refine ⟨fun e => parse_eq_ok_iff, ?_⟩
  constructor
  · rintro ⟨error, herror⟩ ⟨e, he⟩
    rw [parse_eq_ok_iff.mpr he] at herror
    cases herror
  · intro hnone
    cases hparse : Expr.parse source with
    | ok e => exact absurd ⟨e, parse_eq_ok_iff.mp hparse⟩ hnone
    | error error => exact ⟨error, rfl⟩

end TypedLambda.Derivation
