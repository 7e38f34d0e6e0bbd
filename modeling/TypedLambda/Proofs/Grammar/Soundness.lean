import TypedLambda.Proofs.Grammar.Atoms
import TypedLambda.Proofs.Grammar.Operators

/-!
# What is read is derived

Every success of the parser comes from a derivation, by induction on the depth to which names are
nested. The statement for an expression (`Reads`) carries what the next token needs to know: layout
is used up, and behind a phrase that ends in a conditional or a function no expression goes on.

A word is read although a prime may follow it, so derivations are found from the right to the left:
what is derived behind a token shows that no prime follows the token.
-/

namespace TypedLambda.Derivation

open Precedence

variable {c mid stop : Cursor}

/-! ## Types -/

/-- A type is read up to a cursor. -/
structure ReadsType (atomic : Bool) (c : Cursor) (type : Ty) (stop : Cursor) : Prop where
  blank : Stops Blank stop.rest
  derives : Stops Prime stop.rest → DerivesType atomic c.rest type stop.rest

/-- The only operator of types leans to the right, so its left part is atomic. -/
theorem leaf_of_below_arrow {t : Precedence.Tree Ty} (hin : ∀ op ∈ t.ops, op = arrow)
    (hbelow : ∀ op ∈ t.ops, Precedence.Tree.Below .left arrow op) : ∃ type, t = .leaf type := by
  cases t with
  | leaf type => exact ⟨type, rfl⟩
  | node op lhs rhs =>
    have hmem : op ∈ (Precedence.Tree.node op lhs rhs).ops := by simp
    have harrow := hbelow op hmem
    rw [hin op hmem] at harrow
    exact absurd harrow (by decide)

/-- A grouped tree of arrows is read as the grammar derives its type. -/
theorem readsType_of_tree {R : Cursor → Ty → Cursor → Prop}
    (hR : ∀ {c type stop}, R c type stop → ReadsType true c type stop) {t : Precedence.Tree Ty}
    (hg : t.Grouped) (hin : ∀ op ∈ t.ops, op = arrow) (hw : t.WrittenBy R c stop) :
    ReadsType false c t.value stop := by
  induction t generalizing c with
  | leaf type =>
    cases hw with
    | last h =>
      obtain ⟨hb, hd⟩ := hR h
      exact ⟨hb, fun hprime => .atom (hd hprime)⟩
  | node op lhs rhs _ ihr =>
    obtain ⟨-, hgr, hbelow, -⟩ := hg
    rw [Precedence.Tree.ops_node, List.forall_mem_append, List.forall_mem_cons] at hin
    obtain ⟨hinl, rfl, hinr⟩ := hin
    obtain ⟨source, rfl⟩ := leaf_of_below_arrow hinl hbelow
    obtain ⟨mid, hl, hstart, hr⟩ := writtenBy_node_iff.mp hw
    obtain ⟨hs, -⟩ := sign_after hstart
    obtain ⟨hb, hd⟩ := ihr hgr hinr hr
    cases hl with
    | last h =>
      have hprime : Stops Prime mid.rest := hs.advances.prime
      exact ⟨hb, fun hstop => .arrow ((hR h).derives hprime) hs (hd hstop)⟩

/-! ## Expressions -/

/--
An expression is read up to a cursor, and if it ends in a conditional or a function without
parentheses, no expression goes on there.
-/
structure Reads (category : Category) (c : Cursor) (e : Expr) (stop : Cursor) : Prop where
  blank : Stops Blank stop.rest
  derives : ∃ ending, (ending = .trailing → Ends stop.rest) ∧
    (Stops Prime stop.rest → Derives category ending c.rest e stop.rest)

variable {category : Category} {e : Expr}

/-- A closed expression may be followed by anything that is no layout. -/
theorem Reads.of_closed (hb : Stops Blank stop.rest)
    (h : Stops Prime stop.rest → Derives category .closed c.rest e stop.rest) :
    Reads category c e stop :=
  ⟨hb, .closed, nofun, h⟩

/-- A phrase behind which something goes on is closed. -/
theorem Reads.closed (h : Reads category c e mid) (hnot : ¬Ends mid.rest)
    (hprime : Stops Prime mid.rest) : Derives category .closed c.rest e mid.rest := by
  obtain ⟨-, ending, htrailing, hd⟩ := h
  cases ending with
  | trailing => exact absurd (htrailing rfl) hnot
  | closed => exact hd hprime

/-- An argument opens behind its function, so the function is closed. -/
theorem Reads.apply {function argument : Expr} (hf : Reads .application c function mid)
    (ha : Reads .atom mid argument stop) (hopens : ∃ o, Opens o mid.rest) :
    Reads .application c (.app function argument) stop := by
  obtain ⟨hb, ending, htrailing, hd⟩ := ha
  refine ⟨hb, ending, htrailing, fun hprime => ?_⟩
  obtain ⟨o, ho⟩ := hopens
  have hatom := hd hprime
  exact .apply (hf.closed (fun hends => hends.opens o ho) hatom.advances.prime) hatom

/-- **A tree of operators between applications is derived.** -/
theorem reads_of_tree {R : Cursor → Expr → Cursor → Prop}
    (hR : ∀ {c e stop}, R c e stop → Reads .application c e stop) {t : Precedence.Tree Expr}
    (hg : t.Grouped) (hin : ∀ op ∈ t.ops, ∃ o, op = ranked o) (hw : t.WrittenBy R c stop)
    {least : Nat} (hle : ∀ op ∈ t.ops, least ≤ op.rank) :
    Reads (.operation least) c t.value stop := by
  -- The least rank grows on the way down: below an operator it is what the operator allows there.
  induction t generalizing c stop least with
  | leaf e =>
    cases hw with
    | last h =>
      obtain ⟨hb, ending, htrailing, hd⟩ := hR h
      exact ⟨hb, ending, htrailing, fun hprime => .operand (hd hprime)⟩
  | node op lhs rhs ihl ihr =>
    obtain ⟨hgl, hgr, hbelowl, hbelowr⟩ := hg
    rw [Precedence.Tree.ops_node, List.forall_mem_append, List.forall_mem_cons] at hin hle
    obtain ⟨hinl, ⟨o, rfl⟩, hinr⟩ := hin
    obtain ⟨mid, hl, hstart, hr⟩ := writtenBy_node_iff.mp hw
    obtain ⟨hs, -⟩ := sign_after hstart
    have hlhs : Reads (.operation o.leftRank) c lhs.value mid := by
      refine ihl hgl hinl hl fun op hmem => ?_
      obtain ⟨other, rfl⟩ := hinl op hmem
      exact below_left_iff.mp (hbelowl _ hmem)
    have hrhs : Reads (.operation o.rightRank) ((ranked o).after mid) rhs.value stop := by
      refine ihr hgr hinr hr fun op hmem => ?_
      obtain ⟨other, rfl⟩ := hinr op hmem
      exact below_right_iff.mp (hbelowr _ hmem)
    obtain ⟨hb, ending, htrailing, hd⟩ := hrhs
    refine ⟨hb, ending, htrailing, fun hprime => ?_⟩
    have hlhs := hlhs.closed (fun hends => hends.ops o hstart)
      (hs.advances (visible_text o)).prime
    exact .join hle.2.1 hlhs hs (hd hprime)

/-! ## Phrases inside phrases -/

/-- What the names of the grammar read is derived, and an expression ends where none goes on. -/
structure Sound (call : {α : Type} → Phrase α → Parser α) : Prop where
  type : ∀ {c type stop}, (call Phrase.type).Yields c type stop → ReadsType false c type stop
  expression : ∀ {c e stop}, (call Phrase.expression).Yields c e stop →
    Reads (.operation 0) c e stop ∧ Ends stop.rest

section

variable {call : {α : Type} → Phrase α → Parser α} (hs : Sound call)
include hs

theorem Sound.typeAtom {type : Ty} (h : (Phrase.typeAtom.denote call).Yields c type stop) :
    ReadsType true c type stop := by
  rcases yields_typeAtom_iff.mp h with hparens | ⟨hw, rfl⟩ | ⟨hw, rfl⟩
  · obtain ⟨inner, mid, hopen, ht, hclose⟩ := Rule.yields_parens_iff.mp hparens
    obtain ⟨hb, hd⟩ := hs.type ht
    rw [skipLayout_of_stops hb] at hclose
    obtain ⟨-, ho⟩ := (scans_sign "(").sound hopen
    obtain ⟨hb, hc⟩ := (scans_sign ")").sound hclose
    refine ⟨hb, fun hprime => ?_⟩
    have hclosed := hc hprime
    have htype := hd hclosed.advances.prime
    exact .parens (ho htype.advances.prime) htype hclosed
  · obtain ⟨hb, hd⟩ := (scans_word "Int").sound hw
    exact ⟨hb, fun hprime => .int (hd hprime)⟩
  · obtain ⟨hb, hd⟩ := (scans_word "Bool").sound hw
    exact ⟨hb, fun hprime => .bool (hd hprime)⟩

theorem Sound.conditional (h : (Phrase.conditional.denote call).Yields c e stop) :
    Reads .atom c e stop := by
  obtain ⟨c₁, c₂, c₃, c₄, c₅, condition, consequent, alternative, h₁, h₂, h₃, h₄, h₅, h₆, rfl⟩ :=
    yields_conditional_iff.mp h
  obtain ⟨⟨hb, ending₃, -, hn⟩, hends⟩ := hs.expression h₆
  obtain ⟨-, he⟩ := (scans_word "else").sound h₅
  obtain ⟨⟨-, ending₂, -, hy⟩, -⟩ := hs.expression h₄
  obtain ⟨-, ht⟩ := (scans_word "then").sound h₃
  obtain ⟨⟨-, ending₁, -, hc⟩, -⟩ := hs.expression h₂
  obtain ⟨-, hi⟩ := (scans_word "if").sound h₁
  refine ⟨hb, .trailing, fun _ => hends, fun hprime => ?_⟩
  -- Each phrase is derived once the one behind it is, which shows that no prime follows.
  have hn := hn hprime
  have he := he hn.advances.prime
  have hy := hy he.advances.prime
  have ht := ht hy.advances.prime
  have hc := hc ht.advances.prime
  exact .ite (hi hc.advances.prime) hc ht hy he hn

theorem Sound.function (h : (Phrase.function.denote call).Yields c e stop) :
    Reads .atom c e stop := by
  obtain ⟨c₁, c₂, c₃, c₄, c₅, param, type, body, h₁, h₂, h₃, h₄, h₅, h₆, rfl⟩ :=
    yields_function_iff.mp h
  obtain ⟨⟨hblank, ending, -, hb⟩, hends⟩ := hs.expression h₆
  obtain ⟨-, hd⟩ := (scans_sign ".").sound h₅
  obtain ⟨-, ht⟩ := hs.type h₄
  obtain ⟨-, hc⟩ := (scans_sign ":").sound h₃
  obtain ⟨-, hp⟩ := scans_identifier.sound h₂
  obtain ⟨-, hl⟩ := (scans_sign "\\").sound h₁
  refine ⟨hblank, .trailing, fun _ => hends, fun hprime => ?_⟩
  have hb := hb hprime
  have hd := hd hb.advances.prime
  have ht := ht hd.advances.prime
  have hc := hc ht.advances.prime
  have hp := hp hc.advances.prime
  exact .lam (hl hp.advances.prime) hp hc ht hd hb

/-- What is read as an atom is derived as one, whichever alternative has read it. -/
theorem Sound.atom (h : (Phrase.atom.denote call).Yields c e stop) : Reads .atom c e stop := by
  obtain ⟨o, h⟩ := exists_yields_of_atom h
  cases o with
  | parens =>
    obtain ⟨inner, mid, hopen, he, hclose⟩ := Rule.yields_parens_iff.mp h
    obtain ⟨⟨hb, ending, -, hd⟩, -⟩ := hs.expression he
    rw [skipLayout_of_stops hb] at hclose
    obtain ⟨-, ho⟩ := (scans_sign "(").sound hopen
    obtain ⟨hb, hc⟩ := (scans_sign ")").sound hclose
    refine .of_closed hb fun hprime => ?_
    have hclosed := hc hprime
    have hinner := hd hclosed.advances.prime
    exact .parens (ho hinner.advances.prime) hinner hclosed
  | boolean =>
    obtain ⟨literal, hl, rfl⟩ := Rule.yields_map_iff.mp h
    obtain ⟨b, rfl, hw⟩ := yields_boolean_iff.mp hl
    obtain ⟨hb, hd⟩ := (scans_word _).sound hw
    cases b with
    | true => exact .of_closed hb fun hprime => .yes (hd hprime)
    | false => exact .of_closed hb fun hprime => .no (hd hprime)
  | number =>
    obtain ⟨literal, hl, rfl⟩ := Rule.yields_map_iff.mp h
    obtain ⟨n, hn, rfl⟩ := Rule.yields_map_iff.mp hl
    obtain ⟨hb, hd⟩ := scans_number.sound hn
    exact .of_closed hb fun hprime => .number (hd hprime)
  | identifier =>
    obtain ⟨name, hn, rfl⟩ := Rule.yields_map_iff.mp h
    obtain ⟨hb, hd⟩ := scans_identifier.sound hn
    exact .of_closed hb fun hprime => .var (hd hprime)
  | conditional => exact hs.conditional h
  | function => exact hs.function h

/-- Atoms in a row are applications of the first. -/
theorem Sound.row {function : Expr} {arguments : List Expr}
    (hrow : Parser.Row (Phrase.atom.denote call) mid arguments stop)
    (hf : Reads .application c function mid) :
    Reads .application c (arguments.foldl .app function) stop := by
  induction hrow generalizing function with
  | nil => exact hf
  | cons h _ _ ih =>
    obtain ⟨o, ho⟩ := exists_yields_of_atom h
    exact ih (hf.apply (hs.atom h) ⟨o, opens_of_alternative ho⟩)

/-- What is read as a term is derived as an application, and no further atom follows. -/
theorem Sound.term (h : (Phrase.term.denote call).Yields c e stop) :
    Reads .application c e stop ∧ ∀ o, ¬Opens o stop.rest := by
  obtain ⟨⟨function, arguments⟩, hmany, rfl⟩ := Rule.yields_map_iff.mp h
  obtain ⟨mid, hfirst, hrow, hpasses⟩ := Rule.yields_many1_iff.mp hmany
  obtain ⟨hb, ending, htrailing, hd⟩ := hs.atom hfirst
  exact ⟨hs.row hrow ⟨hb, ending, htrailing, fun hprime => .single (hd hprime)⟩,
    passes_atom_iff.mp hpasses⟩

end

/-- **Whatever is read is derived**, to whatever depth names are nested. -/
theorem sound_call (depth : Nat) : Sound (Phrase.grammar.call depth) := by
  induction depth with
  | zero =>
    exact ⟨fun h => absurd h Parser.not_yields_never, fun h => absurd h Parser.not_yields_never⟩
  | succ depth ih =>
    constructor
    · intro c type stop h
      rw [call_type] at h
      obtain ⟨t, hg, hin, hw, rfl, -⟩ := legible_arrow.parsed 0 h
      exact readsType_of_tree ih.typeAtom hg (fun op hmem => listed_arrow_iff.mp (hin op hmem)) hw
    · intro c e stop h
      rw [call_expression] at h
      obtain ⟨t, hg, hin, hw, rfl, hquiet⟩ := legible_expressionLevels.parsed 0 h
      have hreads := reads_of_tree (fun h => (ih.term h).1) hg
        (fun op hmem => listed_expressionLevels_iff.mp (hin op hmem)) hw fun _ _ => Nat.zero_le _
      have hopens : ∀ o, ¬Opens o stop.rest :=
        hw.stop_of_last (P := fun stop => ∀ o, ¬Opens o stop.rest) fun _ _ _ h => (ih.term h).2
      refine ⟨hreads, hreads.blank, hopens, fun op => ?_⟩
      exact hquiet (ranked op) (listed_expressionLevels_iff.mpr ⟨op, rfl⟩)

end TypedLambda.Derivation
