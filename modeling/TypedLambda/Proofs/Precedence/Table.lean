import Mathlib.Data.List.Pairwise
import TypedLambda.Proofs.Precedence.Chain

/-!
# Tables of operators

A table lists levels of operators from the loosest to the tightest. If no operator is spelled with
the start of another one, at most one operator of the table starts at a place, and the table reads
chains as the ranks of its operators ask.

**Main statements.** A chain without an offending operator is read to its end and gives the value of
its only grouped tree; a chain with one is refused at the first, and `Legible.parsed` goes back from
a success to the tree.
-/

namespace TypedLambda.Precedence

variable {α : Type} {levels : List (List (Connective α))} {c stop : Cursor}

/-- The text of neither operator is the start of the text of the other. -/
def Exclusive (op other : Connective α) : Prop :=
  ¬op.text.toList <+: other.text.toList ∧ ¬other.text.toList <+: op.text.toList

instance : Std.Symm (Exclusive (α := α)) := ⟨fun _ _ h => ⟨h.2, h.1⟩⟩

/-- No text of the table is empty, and no two operators of it can be mistaken for each other. -/
structure Legible (levels : List (List (Connective α))) : Prop where
  text_ne : ∀ op ∈ levels.flatten, op.text ≠ ""
  exclusive : levels.flatten.Pairwise Exclusive

/-- The operator is in the table, whose levels are numbered from `loosest` on. -/
def Listed (loosest : Nat) (levels : List (List (Connective α))) (op : Ranked α) : Prop :=
  ∃ i ops, levels[i]? = some ops ∧ op.rank = loosest + i ∧ op.toConnective ∈ ops

theorem not_listed_nil {loosest : Nat} {op : Ranked α} : ¬Listed loosest [] op := by
  rintro ⟨i, ops, h, -⟩
  simp at h

/-- An operator is on the first level or in the rest of the table. -/
theorem listed_cons_iff {loosest : Nat} {ops : List (Connective α)} {op : Ranked α} :
    Listed loosest (ops :: levels) op ↔
      OnLevel ops loosest op ∨ Listed (loosest + 1) levels op := by
  constructor
  · rintro ⟨i, found, h, hrank, hmem⟩
    cases i with
    | zero =>
      obtain rfl : ops = found := Option.some.inj h
      exact Or.inl ⟨hrank, hmem⟩
    | succ i => exact Or.inr ⟨i, found, h, by omega, hmem⟩
  · rintro (⟨hrank, hmem⟩ | ⟨i, found, h, hrank, hmem⟩)
    · exact ⟨0, ops, rfl, hrank, hmem⟩
    · exact ⟨i + 1, found, h, by omega, hmem⟩

theorem Listed.mem_flatten {loosest : Nat} {op : Ranked α} (h : Listed loosest levels op) :
    op.toConnective ∈ levels.flatten := by
  obtain ⟨i, ops, hi, -, hmem⟩ := h
  exact List.mem_flatten.mpr ⟨ops, List.mem_of_getElem? hi, hmem⟩

theorem Listed.le_rank {loosest : Nat} {op : Ranked α} (h : Listed loosest levels op) :
    loosest ≤ op.rank := by
  obtain ⟨i, ops, -, hrank, -⟩ := h
  omega

/-! ## Telling operators apart -/

theorem not_exclusive_of_startsAt {op other : Connective α} (h : op.StartsAt c)
    (h' : other.StartsAt c) : ¬Exclusive op other := by
  rintro ⟨hne, hne'⟩
  rcases List.prefix_or_prefix_of_prefix h h' with hp | hp
  · exact hne hp
  · exact hne' hp

/-- At most one operator of a table starts at a place. -/
theorem eq_of_startsAt {ops : List (Connective α)} (hex : ops.Pairwise Exclusive)
    {op other : Connective α} (hop : op ∈ ops) (hother : other ∈ ops) (h : op.StartsAt c)
    (h' : other.StartsAt c) : op = other := by
  by_contra hne
  exact not_exclusive_of_startsAt h h' (hex.forall hop hother hne)

/-- Where an operator of a level starts, it is the next one. -/
theorem next_eq_some {ops : List (Connective α)} (hex : ops.Pairwise Exclusive)
    {op : Connective α} (hop : op ∈ ops) (h : op.StartsAt c) : next ops c = some op := by
  cases hn : next ops c with
  | none => exact absurd h (next_eq_none_iff.mp hn op hop)
  | some found =>
    obtain ⟨hmem, hstart⟩ := mem_of_next hn
    rw [eq_of_startsAt hex hop hmem h hstart]

theorem Legible.tail {ops : List (Connective α)} (h : Legible (ops :: levels)) :
    Legible levels := by
  obtain ⟨hne, hex⟩ := h
  rw [List.flatten_cons] at hne hex
  exact ⟨fun op hmem => hne op (List.mem_append_right _ hmem), (List.pairwise_append.mp hex).2.1⟩

/-! ## The rule of a table -/

section

variable {σ : Type → Type} {call : {α : Type} → σ α → Parser α} {term : Rule σ α}

/-- The operator as a part of a rule: its text and the layout behind it are read. -/
def Connective.operator (op : Connective α) : Operator σ α :=
  ⟨(Rule.symbol op.text).spaced.map fun _ => op.combine, op.associativity⟩

theorem yields_operator {op : Connective α} (h : op.StartsAt c) :
    ((op.operator : Operator σ α).rule.denote call).Yields c op.combine (op.after c) :=
  Rule.yields_map_iff.mpr ⟨(), Rule.yields_sign_iff.mpr ⟨h, rfl⟩, rfl⟩

theorem passes_operator {op : Connective α} (h : ¬op.StartsAt c) :
    ((op.operator : Operator σ α).rule.denote call).Passes c :=
  Rule.passes_map_iff.mpr (Rule.passes_sign_iff.mpr h)

/-- The parsers of the operators of one associativity. -/
theorem denote_operatorsOf (call : {α : Type} → σ α → Parser α) (ops : List (Connective α))
    (a : Associativity) :
    (Rule.operatorsOf (ops.map Connective.operator) a).denote call
      = Parser.oneOf ((ops.filter (·.associativity = a)).map fun op =>
          (op.operator : Operator σ α).rule.denote call) := by
  rw [Rule.operatorsOf, Rule.denote_oneOf, List.filter_map, List.map_map, List.map_map]
  rfl

/-- A level of a table reads its operators and no others. -/
theorem spells_operatorsOf {ops : List (Connective α)} (hex : ops.Pairwise Exclusive)
    (tighter : Parser α) :
    Spells ⟨tighter, fun a =>
      (Rule.operatorsOf (ops.map (Connective.operator (σ := σ))) a).denote call⟩ ops := by
  constructor
  · intro c op hn
    obtain ⟨hstart, before, after, rfl, hbefore⟩ := List.find?_eq_some_iff_append.mp hn
    dsimp only
    rw [denote_operatorsOf, List.filter_append, List.filter_cons_of_pos (by simp), List.map_append,
      List.map_cons, Parser.yields_oneOf_iff]
    -- The operators before the first that starts all pass, those of the associativity among them.
    refine ⟨_, _, _, rfl, fun p hp => ?_, yields_operator (by simpa using hstart)⟩
    obtain ⟨other, hother, rfl⟩ := List.mem_map.mp hp
    exact passes_operator (by simpa using hbefore other (List.mem_filter.mp hother).1)
  · intro c a hmiss
    dsimp only
    rw [denote_operatorsOf, Parser.passes_oneOf_iff]
    intro p hp
    obtain ⟨op, hop, rfl⟩ := List.mem_map.mp hp
    obtain ⟨hmem, ha⟩ := List.mem_filter.mp hop
    refine passes_operator fun hstart => ?_
    exact hmiss op (next_eq_some hex hmem hstart) (by simpa using ha)

/-- The first level of a table, above the rule of the tighter ones. -/
theorem Legible.stage {ops : List (Connective α)} (h : Legible (ops :: levels)) (loosest : Nat)
    (tighter : Parser α) :
    Stage ⟨tighter, fun a =>
      (Rule.operatorsOf (ops.map (Connective.operator (σ := σ))) a).denote call⟩ ops loosest
      (Listed (loosest + 1) levels) := by
  obtain ⟨hne, hex⟩ := h
  rw [List.flatten_cons] at hne hex
  obtain ⟨hops, -, hapart⟩ := List.pairwise_append.mp hex
  refine ⟨spells_operatorsOf hops tighter, fun hmem => hne _ (List.mem_append_left _ hmem),
    next_eq_some hops, fun hmem hstart hother hstart' => ?_, fun hop => hop.le_rank⟩
  exact not_exclusive_of_startsAt hstart hstart' (hapart _ hmem _ hother.mem_flatten)

/-- The rule that reads chains of the operators of a table between operands. -/
abbrev tableRule (levels : List (List (Connective α))) (term : Rule σ α) : Rule σ α :=
  Rule.table (levels.map (·.map Connective.operator)) term

theorem closes_cons {ops : List (Connective α)} {loosest : Nat} {t : Tree α} {v : Verdict α}
    (h : Closes (Listed loosest (ops :: levels)) t c v) :
    Closes (fun op => OnLevel ops loosest op ∨ Listed (loosest + 1) levels op) t c v := by
  cases h with
  | quiet h => exact .quiet fun op hop => h op (listed_cons_iff.mpr hop)
  | offence h hc ho => exact .offence (listed_cons_iff.mp h) hc ho

/-- **A table makes of every grouped tree what stands behind it asks.** -/
theorem Legible.gives {R : Cursor → α → Cursor → Prop} (hl : Legible levels)
    (hR : ∀ c x stop, R c x stop → (term.denote call).Yields c x stop ∧
      stop.rest.length ≤ c.rest.length)
    {loosest : Nat} {t : Tree α} {v : Verdict α} (hg : t.Grouped)
    (hin : ∀ op ∈ t.ops, Listed loosest levels op) (hw : t.WrittenBy R c stop)
    (hc : Closes (Listed loosest levels) t stop v) :
    ((tableRule levels term).denote call).Gives c v := by
  induction levels generalizing loosest t c stop v with
  | nil =>
    cases t with
    | leaf x =>
      cases hw with
      | last h =>
        cases hc with
        | quiet => exact (hR _ _ _ h).1
        | offence hop => exact absurd hop not_listed_nil
    | node op lhs rhs => exact absurd (hin op (by simp)) not_listed_nil
  | cons ops levels ih =>
    refine (hl.stage loosest _).gives_parse (fun hg hin hw hc => ih hl.tail hg hin hw hc)
      (fun c x stop h => (hR c x stop h).2) hg (fun op hmem => ?_) hw (closes_cons hc)
    exact listed_cons_iff.mp (hin op hmem)

/-- **Every success of a table comes from a grouped tree.** -/
theorem Legible.parsed (hl : Legible levels) (loosest : Nat) {value : α}
    (h : ((tableRule levels term).denote call).Yields c value stop) :
    ∃ t, Parsed (Listed loosest levels) (term.denote call).Yields c value stop t := by
  induction levels generalizing loosest c value stop with
  | nil =>
    exact ⟨.leaf value, trivial, fun _ hmem => absurd hmem List.not_mem_nil, .last h, rfl,
      fun _ hop => absurd hop not_listed_nil⟩
  | cons ops levels ih =>
    obtain ⟨t, hg, hin, hw, hv, hq⟩ := (hl.stage loosest _).parsed_parse
      (fun h => ih hl.tail _ h) h
    exact ⟨t, hg, fun op hmem => listed_cons_iff.mpr (hin op hmem), hw, hv,
      fun op hop => hq op (listed_cons_iff.mp hop)⟩

/-! ## Chains between arbitrary operands -/

/-- Succeeds with a value and reads a piece of the text, up to a cursor. -/
def Consumes (p : Parser α) (c : Cursor) (value : α) (stop : Cursor) : Prop :=
  p.Yields c value stop ∧ stop.rest <:+ c.rest

/-- A table makes of a harmonious chain what its grouped tree asks. -/
theorem Legible.gives_group (hl : Legible levels) {first : α} {links : List (Link α)}
    {v : Verdict α} (hh : Harmonious links) (hin : ∀ link ∈ links, Listed 0 levels link.1)
    (hw : Written (Consumes (term.denote call)) c first links stop)
    (hc : Closes (Listed 0 levels) (Tree.group first links) stop v) :
    ((tableRule levels term).denote call).Gives c v := by
  have hR : ∀ c x stop, Consumes (term.denote call) c x stop →
      (term.denote call).Yields c x stop ∧ stop.rest.length ≤ c.rest.length :=
    fun c x stop h => ⟨h.1, h.2.length_le⟩
  refine hl.gives hR (Tree.grouped_group first hh) ?_ ?_ hc
  · intro op hmem
    rw [Tree.ops, Tree.links_group] at hmem
    obtain ⟨link, hlink, rfl⟩ := List.mem_map.mp hmem
    exact hin link hlink
  · rw [Tree.WrittenBy, Tree.first_group, Tree.links_group]
    exact hw

/--
**A table groups every chain as its ranks and associativities ask, or refuses it.** Without an
offending operator the whole chain is read and the value is that of its only grouped tree. Otherwise
the table fails where the first offending operator starts, and says how that operator groups.
-/
theorem table_reads_chain (hl : Legible levels) {first : α} {links : List (Link α)}
    (hin : ∀ link ∈ links, Listed 0 levels link.1)
    (hw : Written (Consumes (term.denote call)) c first links stop)
    (hend : ∀ op ∈ levels.flatten, ¬op.StartsAt stop) :
    (Harmonious links → ∃ t : Tree α, (t.first = first ∧ t.links = links ∧ t.Grouped) ∧
      (∀ t' : Tree α, t'.first = first → t'.links = links → t'.Grouped → t' = t) ∧
      ((tableRule levels term).denote call).Yields c t.value stop) ∧
    ∀ earlier op operand later, links = earlier ++ (op, operand) :: later → Harmonious earlier →
      Offends (earlier.map Prod.fst) op →
      ∃ place, Written (Consumes (term.denote call)) c first earlier place ∧ op.StartsAt place ∧
        (tableRule levels term).denote call c
          = some ⟨.bad true [place.deadEnd op.associativity.ambiguous], place⟩ := by
  constructor
  · intro hh
    refine ⟨Tree.group first links, ⟨Tree.first_group first links, Tree.links_group first links,
      Tree.grouped_group first hh⟩, ?_, ?_⟩
    · rintro t' rfl rfl hg
      exact Tree.eq_group hg
    · exact hl.gives_group hh hin hw (.quiet fun op hop => hend _ hop.mem_flatten)
  · rintro earlier op operand later rfl hh ho
    obtain ⟨place, hwe, hstart, -⟩ := written_append_iff.mp hw
    have hop : Listed 0 levels op := hin (op, operand) (by simp)
    refine ⟨place, hwe, hstart, ?_⟩
    refine hl.gives_group (v := clash place op.toConnective) hh
      (fun link hmem => hin link (List.mem_append_left _ hmem)) hwe (.offence hop hstart ?_)
    rw [Tree.ops, Tree.links_group]
    exact ho

end

/-! ## A level with both directions -/

/-- An operator that marks its node with a number. -/
def marking (text : String) (a : Associativity) (mark : Nat) : Connective (List Nat) :=
  ⟨text, a, fun lhs rhs => mark :: lhs ++ rhs⟩

/-- An operator to the right and one to the left on one level, above a level of one operator. -/
def mixedLevels : List (List (Connective (List Nat))) :=
  [[marking "&" .right 0, marking "|" .left 1], [marking "*" .left 2]]

theorem legible_mixedLevels : Legible mixedLevels := by
  constructor
  · unfold mixedLevels marking
    decide
  · unfold mixedLevels marking Exclusive
    decide

theorem listed_mixedLevels :
    Listed 0 mixedLevels ⟨marking "&" .right 0, 0⟩ ∧ Listed 0 mixedLevels ⟨marking "|" .left 1, 0⟩ ∧
      Listed 0 mixedLevels ⟨marking "*" .left 2, 1⟩ :=
  ⟨⟨0, _, rfl, rfl, .head _⟩, ⟨0, _, rfl, rfl, .tail _ (.head _)⟩, ⟨1, _, rfl, rfl, .head _⟩⟩

/-- The letter `x` and the layout behind it as an operand. -/
def letterX : Rule (fun _ => Empty) (List Nat) := (Rule.symbol "x").spaced.map fun _ => []

theorem consumes_letterX {c : Cursor} (h : "x".toList <+: c.rest) :
    Consumes (letterX.denote fun x => x.elim) c [] (c.advanceBy 1).skipLayout := by
  refine ⟨Rule.yields_map_iff.mpr ⟨(), Rule.yields_sign_iff.mpr ⟨h, rfl⟩, rfl⟩, ?_⟩
  rw [Cursor.rest_skipLayout, Cursor.rest_advanceBy]
  exact (List.dropWhile_suffix _).trans (List.drop_suffix _ _)

/-- The chain `x & x*x` is grouped, and `x | x*x & x` is refused at its last operator. -/
theorem table_reads_chain_mixed :
    ((tableRule mixedLevels letterX).denote fun x => x.elim).Yields
        ⟨.start, "x & x*x".toList⟩ [0, 2] ⟨⟨7, 1, 8⟩, []⟩ ∧
      ∃ place, (marking "&" .right 0).StartsAt place ∧
        (tableRule mixedLevels letterX).denote (fun x => x.elim) ⟨.start, "x | x*x & x".toList⟩
          = some ⟨.bad true [place.deadEnd (Associativity.right).ambiguous], place⟩ := by
  obtain ⟨hand, hor, hmul⟩ := listed_mixedLevels
  constructor
  · have hw : Written (Consumes (letterX.denote fun x => x.elim)) ⟨.start, "x & x*x".toList⟩ []
        [(⟨marking "&" .right 0, 0⟩, []), (⟨marking "*" .left 2, 1⟩, [])] ⟨⟨7, 1, 8⟩, []⟩ :=
      .link (consumes_letterX (by decide)) (by decide)
        (.link (consumes_letterX (by decide)) (by decide) (.last (consumes_letterX (by decide))))
    obtain ⟨t, -, hunique, ht⟩ := (table_reads_chain legible_mixedLevels (by simp [hand, hmul]) hw
      (by decide)).1 (by decide)
    rw [← hunique (.node ⟨marking "&" .right 0, 0⟩ (.leaf [])
      (.node ⟨marking "*" .left 2, 1⟩ (.leaf []) (.leaf []))) rfl rfl (by decide)] at ht
    exact ht
  · have hw : Written (Consumes (letterX.denote fun x => x.elim)) ⟨.start, "x | x*x & x".toList⟩ []
        [(⟨marking "|" .left 1, 0⟩, []), (⟨marking "*" .left 2, 1⟩, []),
          (⟨marking "&" .right 0, 0⟩, [])] ⟨⟨11, 1, 12⟩, []⟩ :=
      .link (consumes_letterX (by decide)) (by decide)
        (.link (consumes_letterX (by decide)) (by decide)
          (.link (consumes_letterX (by decide)) (by decide)
            (.last (consumes_letterX (by decide)))))
    obtain ⟨place, -, hstart, h⟩ := (table_reads_chain legible_mixedLevels
      (by simp [hand, hor, hmul]) hw (by decide)).2
      [(⟨marking "|" .left 1, 0⟩, []), (⟨marking "*" .left 2, 1⟩, [])] _ _ [] rfl (by decide)
      (by decide)
    exact ⟨place, hstart, h⟩

end TypedLambda.Precedence
