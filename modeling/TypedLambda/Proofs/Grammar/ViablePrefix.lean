import TypedLambda.Proofs.Grammar.Completeness
import TypedLambda.Proofs.Grammar.CompletionLevels
import TypedLambda.Proofs.Source.Places

/-!
# Errors are reported behind viable prefixes

Wherever reading fails, the text before the place of the error can be completed to an expression.
The proof follows the parser through the whole grammar: every rule tracks the phrases that it reads.
-/

namespace TypedLambda.Derivation

open Precedence

variable {call : {α : Type} → Phrase α → Parser α} {c mid stop : Cursor}

/-! ## Parentheses and types -/

/-- A phrase in parentheses is followed, its closing parenthesis included. -/
theorem follows_parens {α : Type} {F : α → List Char → List Char → Prop} {r : Rule Phrase α}
    (h : Follows (r.denote call) F) :
    Follows ((Rule.parens r).denote call)
        (fun value s rest => ∃ s₁ s₂, Sign "(" s s₁ ∧ F value s₁ s₂ ∧ Sign ")" s₂ rest) ∧
      Prompt ((Rule.parens r).denote call) := by
  have hopen := follows_sign call "("
  have hclose := follows_sign call ")"
  have hprogress : ((Phrase.sign "(").denote call).Progressive :=
    Rule.progressive_sign (by decide)
  constructor
  · refine ((hopen.1.bind fun _ => h.spaced).bind fun value =>
      hclose.1.bind fun _ => follows_succeed value).mono ?_ ?_
    · rintro value s rest ⟨_, s₂, ⟨-, s₁, ho, hF⟩, -, s₃, hc, rfl, hgap⟩
      exact ⟨s₁, s₂, ho, hF, absorbs_token hc hgap⟩
    · rintro value s mid rest ⟨s₁, s₂, ho, hF, hc⟩ hgap
      exact ⟨s₁, s₂, ho, hF, absorbs_token hc hgap⟩
  · exact (hopen.2.bind_progressive hprogress).bind_progressive hprogress.bind

/-- What the names of the grammar read, and where they fail, can be completed. -/
structure Completable (call : {α : Type} → Phrase α → Parser α) : Prop where
  type : Follows (call Phrase.type) fun type s rest => DerivesType false s type rest
  expression : Follows (call Phrase.expression) fun e s rest =>
    ∃ ending, Derives (.operation 0) ending s e rest

theorem Completable.typeAtom (h : Completable call) :
    Follows (Phrase.typeAtom.denote call) fun type s rest => DerivesType true s type rest := by
  have hword : ∀ (text : String) (type : Ty), Stops Prime text.toList →
      (∀ {s rest}, Word text s rest → DerivesType true s type rest) →
      Follows (((Phrase.word text).map fun _ => type).denote call)
          (fun type s rest => DerivesType true s type rest) ∧
        Prompt (((Phrase.word text).map fun _ => type).denote call) := by
    intro text type hprime hd
    obtain ⟨hf, hp⟩ := follows_word call text hprime
    refine ⟨(hf.map_rule fun _ => type).mono ?_ fun _ => DerivesType.absorbs, hp.map_rule _⟩
    rintro _ s rest ⟨-, rfl, hw⟩
    exact hd hw
  refine (follows_oneOf ?_ (by simp)).1
  simp only [List.mem_cons, List.not_mem_nil, or_false, forall_eq_or_imp, forall_eq]
  obtain ⟨hf, hp⟩ := follows_parens (r := .ref Phrase.type) h.type
  refine ⟨⟨hf.mono ?_ fun _ => DerivesType.absorbs, hp⟩, hword "Int" .int (by decide) .int,
    hword "Bool" .bool (by decide) .bool⟩
  rintro type s rest ⟨s₁, s₂, ho, ht, hc⟩
  exact .parens ho ht hc

/-! ## Atoms -/

theorem Completable.conditional (h : Completable call) :
    Follows (Phrase.conditional.denote call)
        (fun e s rest => Derives .atom .trailing s e rest) ∧
      Prompt (Phrase.conditional.denote call) := by
  have hif := follows_word call "if"
  have hthen := follows_word call "then"
  have helse := follows_word call "else"
  constructor
  · refine (hif.1.bind fun _ => h.expression.bind fun condition => hthen.1.bind fun _ =>
      h.expression.bind fun consequent => helse.1.bind fun _ => h.expression.bind fun alternative =>
      follows_succeed (Expr.ite condition consequent alternative)).mono ?_ fun _ => Derives.absorbs
    rintro e s rest ⟨-, s₁, hi, _, s₂, ⟨_, hc⟩, -, s₃, ht, _, s₄, ⟨_, hy⟩, -, s₅, he, _, s₆,
      ⟨_, hn⟩, rfl, hgap⟩
    exact .ite hi hc ht hy he (Derives.absorbs hn hgap)
  · exact hif.2.bind_progressive (progressive_word (by decide))

theorem Completable.function (h : Completable call) :
    Follows (Phrase.function.denote call)
        (fun e s rest => Derives .atom .trailing s e rest) ∧
      Prompt (Phrase.function.denote call) := by
  have hlambda := follows_sign call "\\"
  have hparam := follows_identifier call
  have hcolon := follows_sign call ":"
  have hdot := follows_sign call "."
  constructor
  · refine (hlambda.1.bind fun _ => hparam.1.bind fun param => hcolon.1.bind fun _ =>
      h.type.bind fun type => hdot.1.bind fun _ => h.expression.bind fun body =>
      follows_succeed (Expr.lam param type body)).mono ?_ fun _ => Derives.absorbs
    rintro e s rest ⟨-, s₁, hl, _, s₂, hp, -, s₃, hc, _, s₄, ht, -, s₅, hd, _, s₆, ⟨_, hb⟩,
      rfl, hgap⟩
    exact .lam hl hp hc ht hd (Derives.absorbs hb hgap)
  · exact hlambda.2.bind_progressive (Rule.progressive_sign (by decide))

theorem follows_boolean (call : {α : Type} → Phrase α → Parser α) :
    Follows (Phrase.boolean.denote call)
        (fun literal s rest => Derives .atom .closed s (.lit literal) rest) ∧
      Prompt (Phrase.boolean.denote call) := by
  have hkey : ∀ (text : String) (literal : Literal), Stops Prime text.toList →
      (∀ {s rest}, Word text s rest → Derives .atom .closed s (.lit literal) rest) →
      Follows (((Rule.keyword text).map fun _ => literal).denote call)
          (fun literal s rest => Derives .atom .closed s (.lit literal) rest) ∧
        Prompt (((Rule.keyword text).map fun _ => literal).denote call) := by
    intro text literal hprime hd
    obtain ⟨hf, hp⟩ := follows_keyword call text hprime
    refine ⟨(hf.map_rule fun _ => literal).mono ?_ fun _ => Derives.absorbs, hp.map_rule _⟩
    rintro _ s rest ⟨-, rfl, hw⟩
    exact hd hw
  have hboth : ∀ r ∈ [(Rule.keyword "True").map fun _ => Literal.bool true,
      (Rule.keyword "False").map fun _ => Literal.bool false],
      Follows (r.denote call) (fun literal s rest => Derives .atom .closed s (.lit literal) rest) ∧
        Prompt (r.denote call) := by
    simp only [List.mem_cons, List.not_mem_nil, or_false, forall_eq_or_imp, forall_eq]
    exact ⟨hkey "True" _ (by decide) .yes, hkey "False" _ (by decide) .no⟩
  obtain ⟨hf, hp⟩ := follows_oneOf hboth (by simp)
  exact ⟨hf.spaced, hp.spaced⟩

/-- How an atom of a kind ends. -/
def Opening.ending : Opening → Ending
  | conditional | function => .trailing
  | parens | boolean | number | identifier => .closed

/-- Each kind of atom can be completed, and fails at its start if nothing was read. -/
theorem Completable.alternative (h : Completable call) (o : Opening) :
    Follows (o.alternative.denote call) (fun e s rest => Derives .atom o.ending s e rest) ∧
      Prompt (o.alternative.denote call) := by
  cases o with
  | parens =>
    obtain ⟨hf, hp⟩ := follows_parens (r := .ref Phrase.expression) h.expression
    refine ⟨hf.mono ?_ fun _ => Derives.absorbs, hp⟩
    rintro e s rest ⟨s₁, s₂, ho, ⟨ending, he⟩, hc⟩
    exact .parens ho he hc
  | boolean =>
    obtain ⟨hf, hp⟩ := follows_boolean call
    refine ⟨(hf.map_rule Expr.lit).mono ?_ fun _ => Derives.absorbs, hp.map_rule Expr.lit⟩
    rintro e s rest ⟨literal, rfl, hl⟩
    exact hl
  | number =>
    obtain ⟨hf, hp⟩ := follows_number call
    refine ⟨((hf.map_rule Literal.int).map_rule Expr.lit).mono ?_ fun _ => Derives.absorbs,
      (hp.map_rule Literal.int).map_rule Expr.lit⟩
    rintro e s rest ⟨_, rfl, n, rfl, hn⟩
    exact .number hn
  | identifier =>
    obtain ⟨hf, hp⟩ := follows_identifier call
    refine ⟨(hf.map_rule Expr.var).mono ?_ fun _ => Derives.absorbs, hp.map_rule Expr.var⟩
    rintro e s rest ⟨name, rfl, hn⟩
    exact .var hn
  | conditional => exact h.conditional
  | function => exact h.function

/-- Phrases of a category of the grammar. -/
abbrev derived (category : Category) : Phrases Expr :=
  fun ending e s rest => Derives category ending s e rest

section

variable (hs : Sound call) (h : Completable call) {e : Expr}
include hs h

/-- Behind a conditional or a function no expression goes on. -/
theorem attains_atom (hy : (Phrase.atom.denote call).Yields c e stop) :
    Attains Ends (derived .atom) c e stop := by
  obtain ⟨o, hy⟩ := exists_yields_of_atom hy
  refine ⟨o.ending, fun htrailing => ?_, (h.alternative o).1.yields hy⟩
  cases o with
  | conditional =>
    obtain ⟨_, _, _, _, _, _, _, _, -, -, -, -, -, hlast, -⟩ := yields_conditional_iff.mp hy
    exact (hs.expression hlast).2
  | function =>
    obtain ⟨_, _, _, _, _, _, _, _, -, -, -, -, -, hlast, -⟩ := yields_function_iff.mp hy
    exact (hs.expression hlast).2
  | _ => cases htrailing

/-- Atoms are closed, but for conditionals and functions, behind which nothing goes on. -/
theorem tracks_atom : Tracks Ends (Phrase.atom.denote call) (derived .atom) := by
  have hall : Follows (Phrase.atom.denote call) (derived .atom).any := by
    have hmem : ∀ r ∈ Opening.all.map Opening.alternative,
        Follows (r.denote call) (derived .atom).any ∧ Prompt (r.denote call) := by
      intro r hr
      obtain ⟨o, -, rfl⟩ := List.mem_map.mp hr
      obtain ⟨hf, hp⟩ := h.alternative o
      refine ⟨hf.mono (fun hd => ⟨o.ending, hd⟩) ?_, hp⟩
      exact Phrases.absorbs_any fun _ _ => Derives.absorbs
    exact (follows_oneOf hmem (List.cons_ne_nil _ _)).1
  refine ⟨fun {c reply} hreply => ?_, hall.viable, fun _ _ => Derives.absorbs⟩
  obtain ⟨step, stop⟩ := reply
  cases step with
  | good progress e => exact .good (attains_atom hs h ⟨progress, hreply⟩)
  | bad progress problems => exact .bad (hall.fails hreply)

/-! ## Applications -/

omit hs h in
/-- A closed application and a further atom. -/
theorem Attains.applied {function : Expr} {reply : Reply Expr}
    (hf : Attains Ends (derived .application) c function mid) (hnot : ¬Ends mid.rest)
    (ha : Tracked Ends (derived .atom) mid reply) :
    Tracked Ends (derived .application) c (reply.onStep (Step.map (.app function))) :=
  ha.prepend (hf.closed hnot) Derives.absorbs fun hf ha => .apply hf ha

/-- Arguments one behind the other are applied from the left. -/
theorem attains_row {function : Expr} {arguments : List Expr}
    (hrow : Parser.Row (Phrase.atom.denote call) mid arguments stop)
    (hf : Attains Ends (derived .application) c function mid) :
    Attains Ends (derived .application) c (arguments.foldl .app function) stop := by
  induction hrow generalizing function with
  | nil => exact hf
  | cons hy _ _ ih =>
    obtain ⟨o, ho⟩ := exists_yields_of_atom hy
    have hnot := fun hends : Ends _ => hends.opens o (opens_of_alternative ho)
    obtain ⟨progress, hy⟩ := hy
    exact ih (hf.applied hnot ((tracks_atom hs h).replies hy)).attains

omit hs h in
/-- A term fails at its first atom, or is refused at an atom behind others. -/
theorem term_fails {progress : Bool} {problems : List DeadEnd}
    (hb : Phrase.term.denote call c = some ⟨.bad progress problems, stop⟩) :
    (∃ progress, Phrase.atom.denote call c = some ⟨.bad progress problems, stop⟩) ∨
      ∃ first behind arguments last, (Phrase.atom.denote call).Yields c first behind ∧
        Parser.Row (Phrase.atom.denote call) behind arguments last ∧
        Phrase.atom.denote call last = some ⟨.bad true problems, stop⟩ := by
  rcases Parser.bind_cases hb with ⟨_, _, _, hrow, heq⟩ | ⟨_, _, _, _, -, hsucceed, heq⟩
  · cases heq
    rcases Parser.bind_cases hrow with
      ⟨_, _, _, hfirst, heq⟩ | ⟨_, first, behind, ⟨step, _⟩, hfirst, hothers, heq⟩
    · cases heq
      exact Or.inl ⟨_, hfirst⟩
    · cases step with
      | good => cases heq
      | bad progress' more =>
        cases heq
        rcases Parser.bind_cases hothers with ⟨_, _, _, hmany, heq⟩ | ⟨_, _, _, _, -, hsucceed, heq⟩
        · cases heq
          obtain ⟨-, arguments, last, hrow, hlast⟩ := Parser.many_refused hmany
          exact Or.inr ⟨first, behind, arguments, last, ⟨_, hfirst⟩, hrow, hlast⟩
        · cases hsucceed
          cases heq
  · cases hsucceed
    cases heq

theorem attains_term (hy : (Phrase.term.denote call).Yields c e stop) :
    Attains Ends (derived .application) c e stop := by
  obtain ⟨⟨function, arguments⟩, hmany, rfl⟩ := Rule.yields_map_iff.mp hy
  obtain ⟨mid, hfirst, hrow, -⟩ := Rule.yields_many1_iff.mp hmany
  exact attains_row hs h hrow ((attains_atom hs h hfirst).mono .single)

/-- A term can be completed: by an atom if none was read, by nothing otherwise. -/
theorem tracks_term : Tracks Ends (Phrase.term.denote call) (derived .application) := by
  have hatom := tracks_atom hs h
  refine ⟨fun {c reply} hreply => ?_, ?_, fun _ _ => Derives.absorbs⟩
  · obtain ⟨step, stop⟩ := reply
    cases step with
    | good progress e => exact .good (attains_term hs h ⟨progress, hreply⟩)
    | bad progress problems =>
      rcases term_fails hreply with
        ⟨_, hb⟩ | ⟨first, behind, arguments, last, hfirst, hrow, hlast⟩
      · refine .bad ((hatom.follows.fails hb).mono (g := id) ?_)
        exact fun ⟨ending, hd⟩ => ⟨ending, .single hd⟩
      · have hfunction := attains_row hs h hrow ((attains_atom hs h hfirst).mono .single)
        have hnot : ¬Ends last.rest := by
          intro hends
          obtain ⟨_, _, hpass⟩ := passes_atom_iff.mpr hends.opens
          rw [hlast] at hpass
          cases hpass
        cases hfunction.applied hnot (hatom.replies hlast) with
        | bad hhalts => exact .bad hhalts
  · exact hatom.viable.mono (g := id) fun ⟨ending, hd⟩ => ⟨ending, .single hd⟩

end

/-! ## Operators -/

/-- An operation of tight operators is one where looser operators are allowed too. -/
theorem Derives.loosen {ending : Ending} {least least' : Nat} {e : Expr} {s rest : List Char}
    (h : Derives (.operation least') ending s e rest) (hle : least ≤ least') :
    Derives (.operation least) ending s e rest := by
  cases h with
  | operand h => exact .operand h
  | join hrank hl ho hr => exact .join (Nat.le_trans hle hrank) hl ho hr

/-- Where an operator of expressions starts, an expression does not end. -/
theorem goes_of_ranked {ops : List (Connective Expr)}
    (h : ∀ op ∈ ops, ∃ o, (ranked o).toConnective = op) : Goes Ends ops := by
  constructor
  · intro op hop
    obtain ⟨o, rfl⟩ := h op hop
    exact (visible_text o).prime
  · intro op hop c hstart hends
    obtain ⟨o, rfl⟩ := h op hop
    exact hends.ops o hstart

/-- The operators of a rank join phrases as the grammar allows on their two sides. -/
theorem joins_of_ranked {ops : List (Connective Expr)} {rank : Nat}
    (h : ∀ op ∈ ops, ∃ o, (ranked o).toConnective = op ∧ o.rank = rank) :
    Joins ops (derived (.operation (rank + 1))) (derived (.operation rank)) := by
  refine ⟨fun hd => hd.loosen (Nat.le_succ rank), ?_, ?_, ?_, fun _ _ => Derives.absorbs⟩
  all_goals
    intro op ending lhs rhs s s₁ s₂ rest hop ha hl ho hr
    obtain ⟨o, rfl, rfl⟩ := h op hop
    have hgrouping : o.grouping = _ := ha
    refine .join (Nat.le_refl o.rank) ?_ ho ?_
    · rw [Op.leftRank, hgrouping]
      exact hl
    · rw [Op.rightRank, hgrouping]
      exact hr

/-- An expression can be completed wherever its reading fails. -/
theorem tracks_expression (hs : Sound call) (h : Completable call) :
    Tracks Ends ((tableRule expressionLevels Phrase.term).denote call)
      (derived (.operation 0)) := by
  have hranked : ∀ {i ops}, expressionLevels[i]? = some ops → ∀ op ∈ ops,
      ∃ o, (ranked o).toConnective = op ∧ o.rank = 0 + i := by
    intro i ops hi op hop
    have hlisted : Listed 0 expressionLevels ⟨op, 0 + i⟩ := ⟨i, ops, hi, rfl, hop⟩
    obtain ⟨o, ho⟩ := listed_expressionLevels_iff.mp hlisted
    exact ⟨o, (congrArg Ranked.toConnective ho).symm, (congrArg Ranked.rank ho).symm⟩
  refine Tracks.table (T := fun rank => derived (.operation rank)) legible_expressionLevels ?_ ?_ ?_
  · intro ops hmem
    obtain ⟨i, hi⟩ := List.mem_iff_getElem?.mp hmem
    refine goes_of_ranked fun op hop => ?_
    obtain ⟨o, ho, -⟩ := hranked hi op hop
    exact ⟨o, ho⟩
  · intro i ops hi
    exact joins_of_ranked (hranked hi)
  · intro rank
    have hterm := tracks_term hs h
    refine ⟨fun hreply => (hterm.replies hreply).mono .operand, ?_, fun _ _ => Derives.absorbs⟩
    exact hterm.viable.mono (g := id) fun ⟨ending, hd⟩ => ⟨ending, .operand hd⟩

theorem follows_type (h : Completable call) :
    Follows ((tableRule [[arrow.toConnective]] Phrase.typeAtom).denote call)
      fun type s rest => DerivesType false s type rest := by
  have hjoins : Joins [arrow.toConnective] (fun _ type s rest => DerivesType true s type rest)
      (fun _ type s rest => DerivesType false s type rest) := by
    refine ⟨.atom, ?_, ?_, ?_, fun _ _ => DerivesType.absorbs⟩
    all_goals
      intro op ending lhs rhs s s₁ s₂ rest hop ha hl ho hr
      obtain rfl := List.mem_singleton.mp hop
    · cases ha
    · exact .arrow hl ho hr
    · cases ha
  have hgoes : Goes (fun _ => False) [arrow.toConnective] := by
    refine ⟨fun op hop => ?_, fun _ _ _ _ hfalse => hfalse⟩
    obtain rfl := List.mem_singleton.mp hop
    decide
  have htype : Tracks (fun _ => False)
      ((tableRule [[arrow.toConnective]] Phrase.typeAtom).denote call)
      (fun _ type s rest => DerivesType false s type rest) :=
    Tracks.level (legible_arrow.stage 0 _).spells hgoes hjoins h.typeAtom.tracks
  exact htype.follows.mono (fun ⟨_, hd⟩ => hd) fun _ => DerivesType.absorbs

/-- **Whatever is read, and wherever reading fails, can be completed**, to whatever depth. -/
theorem completable_call (depth : Nat) : Completable (Phrase.grammar.call depth) := by
  induction depth with
  | zero =>
    -- Nothing is read, but the families of phrases are the same.
    constructor
    · refine ⟨nofun, ?_, fun _ => DerivesType.absorbs⟩
      have hint := (follows_word (Phrase.grammar.call 0) "Int").1.viable
      exact hint.mono (g := fun _ => .int) fun hw => .atom (.int hw)
    · refine ⟨nofun, ?_, Phrases.absorbs_any fun _ _ => Derives.absorbs⟩
      have hname := (follows_identifier (Phrase.grammar.call 0)).1.viable
      exact hname.mono (g := .var) fun h => ⟨.closed, .operand (.single (.var h))⟩
  | succ depth ih => exact ⟨follows_type ih, (tracks_expression (sound_call depth) ih).follows⟩

/-! ## Whole texts -/

/-- A program in front of a text. -/
def ProgramBefore (e : Expr) : List Char → List Char → Prop :=
  Then Gap fun s rest => ∃ ending, Derives (.operation 0) ending s e rest

theorem follows_whole (depth : Nat) :
    Follows (Phrase.expression.whole.denote (Phrase.grammar.call depth)) ProgramBefore := by
  refine (follows_layout.bind fun _ => (completable_call depth).expression).mono ?_ fun _ => ?_
  · rintro e s rest ⟨-, h⟩
    exact h
  · exact Absorbs.then (Phrases.absorbs_any (fun _ _ => Derives.absorbs) _)

/-- A text that goes on is reported where it should have ended. -/
theorem endOfInput_fails {progress : Bool} {problems : List DeadEnd}
    (h : Parser.endOfInput c = some ⟨.bad progress problems, stop⟩) :
    problems = [c.deadEnd .expectingEnd] := by
  unfold Parser.endOfInput at h
  split at h <;> cases h
  rfl

/-- An error is reported inside an expression, or behind one that does not end the text. -/
theorem halts_of_error {source : String} {err : ParseError}
    (h : Expr.parse source = .error err) : Halts ProgramBefore (.start source) err.deadEnds := by
  have hfollows := follows_whole (source.length + 1)
  obtain ⟨⟨step, stop⟩, hreply, hstep⟩ :=
    Option.map_eq_some_iff.mp (Phrase.expression.run_whole source)
  have hbad : step.toExcept = .error err := hstep.trans h
  cases step with
  | good => cases hbad
  | bad progress problems =>
    cases hbad
    rcases Parser.bind_cases hreply with
      ⟨_, _, _, hb, heq⟩ | ⟨_, e, mid, ⟨step, _⟩, hgood, hend, heq⟩
    · cases heq
      exact hfollows.fails hb
    · cases step with
      | good => cases heq
      | bad progress' problems' =>
        cases heq
        rcases Parser.bind_cases hend with ⟨_, _, _, hb, heq⟩ | ⟨_, _, _, _, -, hsucceed, heq⟩
        · cases heq
          rw [endOfInput_fails hb]
          exact (hfollows.yields ⟨_, hgood⟩).halts_behind (hfollows.absorbs e) _
        · cases hsucceed
          cases heq

end TypedLambda.Derivation

namespace TypedLambda

open TypedLambda.Derivation

/-! ## Places -/

/-- Every character moves the row or the column on. -/
theorem Position.lt_next (p : Position) (a : Char) :
    p.row < (p.next a).row ∨ p.row = (p.next a).row ∧ p.column < (p.next a).column := by
  unfold next
  split
  · exact Or.inl (Nat.lt_succ_self _)
  · exact Or.inr ⟨rfl, Nat.lt_succ_self _⟩

/-- Reading on leads to a later place, first by rows and then by columns. -/
theorem Position.lt_after (p : Position) {text : List Char} (h : text ≠ []) :
    p.row < (p.after text).row ∨
      p.row = (p.after text).row ∧ p.column < (p.after text).column := by
  induction text generalizing p with
  | nil => exact absurd rfl h
  | cons a text ih =>
    rw [after_cons]
    have hnext := p.lt_next a
    cases text with
    | nil => exact hnext
    | cons b text =>
      have hlater := ih (p.next a) (List.cons_ne_nil b text)
      omega

/--
Row and column of the place in front of the character with a number, counted from zero: one more
than the line feeds before it, and one more than the characters behind the last of them.
-/
def placeOf (source : String) (index : Nat) : Nat × Nat :=
  let before := source.toList.take index
  (1 + before.count '\n', 1 + Position.lastLineLength before)

/-- A cursor that has moved over the text before a place counts the row and column of the place. -/
theorem placeOf_eq (source : String) (index : Nat) :
    placeOf source index = ((Position.start.after (source.toList.take index)).row,
      (Position.start.after (source.toList.take index)).column) := by
  obtain ⟨hrow, hcolumn⟩ := Position.row_column_after (source.toList.take index)
  rw [hrow, hcolumn]
  rfl

/-- A later place of a text is in a later row, or further on in the same row. -/
theorem placeOf_lt {source : String} {i j : Nat} (hij : i < j) (hj : j ≤ source.length) :
    (placeOf source i).1 < (placeOf source j).1 ∨
      (placeOf source i).1 = (placeOf source j).1 ∧
        (placeOf source i).2 < (placeOf source j).2 := by
  have hsplit : source.toList.take j =
      source.toList.take i ++ (source.toList.take j).drop i := by
    have happend := (List.take_append_drop i (source.toList.take j)).symm
    rwa [List.take_take, Nat.min_eq_left (by omega)] at happend
  have hne : (source.toList.take j).drop i ≠ [] := by
    rw [← List.length_pos_iff, List.length_drop, List.length_take, String.length_toList]
    omega
  rw [placeOf_eq, placeOf_eq, hsplit, Position.after_append]
  exact Position.lt_after _ hne

/-- Row and column tell the places of a text apart. -/
theorem placeOf_inj {source : String} {i j : Nat} (hi : i ≤ source.length) (hj : j ≤ source.length)
    (h : placeOf source i = placeOf source j) : i = j := by
  rcases Nat.lt_trichotomy i j with hij | rfl | hij
  · have := placeOf_lt hij hj
    rw [h] at this
    omega
  · rfl
  · have := placeOf_lt hij hi
    rw [h] at this
    omega

/--
**An error is reported behind a viable prefix.** All dead ends of an error lie at one place of the
text, which their row and column tell, and what stands before it can be completed to a text that is
read without an error.
-/
theorem parse_error_behind_viable_prefix {source : String} {err : ParseError}
    (h : Expr.parse source = .error err) :
    err.deadEnds ≠ [] ∧ ∃ p ≤ source.length,
      (∀ x ∈ err.deadEnds, (x.row, x.column) = placeOf source p) ∧
      (∀ q ≤ source.length, placeOf source q = placeOf source p → q = p) ∧
      ∃ t e, Expr.parse (String.ofList (source.toList.take p) ++ t) = .ok e := by
  obtain ⟨hne, u, d, hspans, -, hat, t, e, ht⟩ := halts_of_error h
  have hrest : source.toList = u ++ d.rest := hspans.rest
  have htake : source.toList.take u.length = u := by rw [hrest, List.take_left]
  have hle : u.length ≤ source.length := by
    rw [← String.length_toList, hrest, List.length_append]
    omega
  refine ⟨hne, u.length, hle, ?_, fun q hq => placeOf_inj hq hle, String.ofList t, e, ?_⟩
  · intro x hx
    have hplace : placeOf source u.length = (d.position.row, d.position.column) := by
      rw [placeOf_eq, htake, hspans.position]
      rfl
    obtain ⟨hrow, hcolumn⟩ := hat x hx
    rw [hplace, hrow, hcolumn]
  · obtain ⟨start, hgap, ending, hd⟩ := ht []
    refine parse_eq_ok_iff.mpr ⟨start, ending, ?_, hd⟩
    rw [htake, String.toList_append, String.toList_ofList, String.toList_ofList]
    rwa [List.append_nil] at hgap

/-- A second comparison in a chain is reported in the second line, where it starts. -/
theorem parse_error_behind_viable_prefix_chained :
    Expr.parse "(1 ==\n 2 == 3" = .error ⟨[⟨2, 4, Associativity.non.ambiguous⟩]⟩ ∧
      ∃ p ≤ "(1 ==\n 2 == 3".length, placeOf "(1 ==\n 2 == 3" p = (2, 4) ∧
        ∃ t e, Expr.parse (String.ofList ("(1 ==\n 2 == 3".toList.take p) ++ t) = .ok e := by
  have herror : Expr.parse "(1 ==\n 2 == 3" =
      .error ⟨[⟨2, 4, Associativity.non.ambiguous⟩]⟩ := by
    decide +kernel
  obtain ⟨-, p, hp, hat, -, hviable⟩ := parse_error_behind_viable_prefix herror
  exact ⟨herror, p, hp, (hat _ List.mem_cons_self).symm, hviable⟩

end TypedLambda
