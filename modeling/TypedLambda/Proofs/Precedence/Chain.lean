import TypedLambda.Proofs.Precedence.Level

/-!
# Chains read by one level

A level whose operands are chains of tighter operators reads longer chains. Both directions are
stated against trees: a grouped tree that is written in the text leads the level to its value, or to
the refusal of the operator behind it that offends, and every success comes from a grouped tree.

The relation between the tighter operators and the term of the level is assumed here
(`Stage.Gives`, `Stage.Parses`), because that is the statement of this file for the next tighter
level.
-/

namespace TypedLambda.Precedence

variable {α : Type} {R : Cursor → α → Cursor → Prop} {c mid stop : Cursor} {first operand x : α}

/-! ## Chains in a text -/

/--
From one cursor to another the text is a chain. The relation says how an operand is read; behind
each operand but the last an operator starts, and the next operand starts behind the layout after
it.
-/
inductive Written (R : Cursor → α → Cursor → Prop) : Cursor → α → List (Link α) → Cursor → Prop
  | last {c : Cursor} {first : α} {stop : Cursor} (h : R c first stop) : Written R c first [] stop
  | link {c : Cursor} {first : α} {mid : Cursor} {op : Ranked α} {operand : α}
    {links : List (Link α)} {stop : Cursor} (h : R c first mid) (hop : op.StartsAt mid)
    (hw : Written R (op.after mid) operand links stop) :
    Written R c first ((op, operand) :: links) stop

/-- A chain can be cut before each of its operators. -/
theorem written_append_iff {links more : List (Link α)} {op : Ranked α} :
    Written R c first (links ++ (op, operand) :: more) stop ↔
      ∃ mid, Written R c first links mid ∧ op.StartsAt mid ∧
        Written R (op.after mid) operand more stop := by
  induction links generalizing c first with
  | nil =>
    constructor
    · rintro (_ | ⟨h, hop, hw⟩)
      exact ⟨_, .last h, hop, hw⟩
    · rintro ⟨mid, _ | _, hop, hw⟩
      next h => exact .link h hop hw
  | cons link links ih =>
    obtain ⟨op', operand'⟩ := link
    constructor
    · rintro (_ | ⟨h, hop', hw⟩)
      obtain ⟨mid, hw, hop, hmore⟩ := ih.mp hw
      exact ⟨mid, .link h hop' hw, hop, hmore⟩
    · rintro ⟨mid, _ | ⟨h, hop', hw⟩, hop, hmore⟩
      exact .link h hop' (ih.mpr ⟨mid, hw, hop, hmore⟩)

/-- A tree is written if its chain is. -/
abbrev Tree.WrittenBy (R : Cursor → α → Cursor → Prop) (c : Cursor) (t : Tree α) (stop : Cursor) :
    Prop :=
  Written R c t.first t.links stop

/-- A node is written as its left operand, its operator and its right operand. -/
theorem writtenBy_node_iff {op : Ranked α} {lhs rhs : Tree α} :
    (Tree.node op lhs rhs).WrittenBy R c stop ↔
      ∃ mid, lhs.WrittenBy R c mid ∧ op.StartsAt mid ∧ rhs.WrittenBy R (op.after mid) stop :=
  written_append_iff

theorem Connective.length_after_le (op : Connective α) (c : Cursor) :
    (op.after c).rest.length ≤ c.rest.length - op.text.length := by
  rw [after, Cursor.rest_skipLayout, Cursor.rest_advanceBy, ← List.length_drop]
  exact (List.dropWhile_suffix isLayout).length_le

theorem Connective.length_after_lt {op : Connective α} (hne : op.text ≠ "") (h : op.StartsAt c) :
    (op.after c).rest.length < c.rest.length := by
  have hafter := op.length_after_le c
  have hpos : op.text.length ≠ 0 := fun h0 => hne (String.length_eq_zero_iff.mp h0)
  have hle := h.length_le
  rw [String.length_toList] at hle
  omega

theorem Written.length_le (hR : ∀ c x stop, R c x stop → stop.rest.length ≤ c.rest.length)
    {links : List (Link α)} (h : Written R c first links stop) :
    stop.rest.length ≤ c.rest.length := by
  induction h with
  | last h => exact hR _ _ _ h
  | @link c first mid op operand links stop h hop hw ih =>
    have h₁ := hR _ _ _ h
    have h₂ := op.length_after_le mid
    omega

/-- What holds behind every operand holds behind the chain. -/
theorem Written.stop_of_last {links : List (Link α)} (h : Written R c first links stop)
    {P : Cursor → Prop} (hR : ∀ c x stop, R c x stop → P stop) : P stop := by
  induction h with
  | last h => exact hR _ _ _ h
  | link _ _ _ ih => exact ih

/-! ## What stands behind a tree -/

/--
What a parser for the operators in `Here` makes of a tree that ends at a cursor: the value of the
tree if none of them starts there, a refusal if one starts that offends.
-/
inductive Closes (Here : Ranked α → Prop) (t : Tree α) (c : Cursor) : Verdict α → Prop
  | quiet (h : ∀ op, Here op → ¬op.StartsAt c) : Closes Here t c (.accepted t.value c)
  | offence {op : Ranked α} (h : Here op) (hc : op.StartsAt c) (ho : Offends t.ops op) :
    Closes Here t c (clash c op.toConnective)

/-- An operator behind a node offends against its right operand, or against its root. -/
theorem offends_node_iff {op other : Ranked α} {lhs rhs : Tree α} (h : op.rank ≤ other.rank) :
    Offends (Tree.node op lhs rhs).ops other ↔
      Offends rhs.ops other ∨ nearest rhs.ops other.rank = none ∧ op.rank = other.rank ∧
        (op.associativity ≠ other.associativity ∨ op.associativity = .non) := by
  unfold Offends
  rw [Tree.nearest_node lhs rhs h]
  cases nearest rhs.ops other.rank with
  | none => simp
  | some near => simp

/-- What is on the left of the root does not matter behind a tree. -/
theorem Closes.replace_lhs {Here : Ranked α → Prop} {op : Ranked α} {lhs rhs : Tree α}
    {v : Verdict α} (hrank : ∀ other, Here other → op.rank ≤ other.rank)
    (h : Closes Here (.node op lhs rhs) c v) :
    Closes Here (.node op (.leaf lhs.value) rhs) c v := by
  cases h with
  | quiet h => exact .quiet h
  | offence h hc ho =>
    rw [offends_node_iff (hrank _ h)] at ho
    exact .offence h hc ((offends_node_iff (hrank _ h)).mpr ho)

/-- Behind a chain that leans to the right only its last part matters. -/
theorem Closes.rhs {Here : Ranked α → Prop} {op inner : Ranked α} {lhs rhs : Tree α}
    {v : Verdict α} (hrank : ∀ other, Here other → op.rank ≤ other.rank)
    (hsame : inner.rank = op.rank)
    (h : Closes Here (.node op (.leaf x) (.node inner lhs rhs)) c v) :
    ∃ w, Closes Here (.node inner (.leaf lhs.value) rhs) c w ∧ v = w.map (op.combine x) := by
  have hinner : ∀ other, Here other → inner.rank ≤ other.rank :=
    fun other hother => hsame ▸ hrank other hother
  cases h with
  | quiet h => exact ⟨_, .quiet h, rfl⟩
  | @offence other h hc ho =>
    rw [offends_node_iff (hrank _ h)] at ho
    rcases ho with ho | ⟨hnone, -⟩
    · exact ⟨_, .replace_lhs hinner (.offence h hc ho), rfl⟩
    · rw [Tree.nearest_node lhs rhs (hinner _ h)] at hnone
      cases hnear : nearest rhs.ops other.rank <;> rw [hnear] at hnone <;> cases hnone

/-! ## A level and the operators tighter than it -/

/-- The operator is on the level of a rank. -/
def OnLevel (ops : List (Connective α)) (rank : Nat) (op : Ranked α) : Prop :=
  op.rank = rank ∧ op.toConnective ∈ ops

/-- A level that reads the operators `ops` of a rank, told apart from all tighter operators. -/
structure Stage (l : Level α) (ops : List (Connective α)) (rank : Nat) (Tight : Ranked α → Prop) :
    Prop where
  spells : Spells l ops
  text_ne : ∀ {op}, op ∈ ops → op.text ≠ ""
  next_eq : ∀ {op c}, op ∈ ops → op.StartsAt c → next ops c = some op
  apart : ∀ {op other c}, op ∈ ops → op.StartsAt c → Tight other → ¬other.StartsAt c
  rank_lt : ∀ {op}, Tight op → rank < op.rank

/-- The term of a level makes of every tree of tighter operators what stands behind it asks. -/
def Stage.Gives (l : Level α) (Tight : Ranked α → Prop) (R : Cursor → α → Cursor → Prop) : Prop :=
  ∀ {t : Tree α} {c stop : Cursor} {v : Verdict α}, t.Grouped → (∀ op ∈ t.ops, Tight op) →
    t.WrittenBy R c stop → Closes Tight t stop v → l.term.Gives c v

section

variable {l : Level α} {ops : List (Connective α)} {rank : Nat} {Tight : Ranked α → Prop}
  {t lhs rhs : Tree α} {op : Ranked α} {v : Verdict α}

/-- No operator is looser than the level. -/
theorem Stage.rank_le (hs : Stage l ops rank Tight) (h : OnLevel ops rank op ∨ Tight op) :
    rank ≤ op.rank := by
  rcases h with h | h
  · exact Nat.le_of_eq h.1.symm
  · exact Nat.le_of_lt (hs.rank_lt h)

/-- Only the operators of the level itself have its rank. -/
theorem Stage.tight_of_lt (hop : OnLevel ops rank op ∨ Tight op) (hlt : rank < op.rank) :
    Tight op := by
  rcases hop with hop | hop
  · exact absurd hop.1 (by omega)
  · exact hop

/-- A tree with a tight root has no operator of the level. -/
theorem Stage.tight_of_root (hs : Stage l ops rank Tight) (hg : (Tree.node op lhs rhs).Grouped)
    (hin : ∀ other ∈ (Tree.node op lhs rhs).ops, OnLevel ops rank other ∨ Tight other)
    (hop : Tight op) : ∀ other ∈ (Tree.node op lhs rhs).ops, Tight other := by
  intro other hmem
  have hlt := hs.rank_lt hop
  have hle := hg.rank_le other hmem
  exact Stage.tight_of_lt (hin other hmem) (by omega)

/-- Below an operator of the level, on a side to which it does not lean, all operators are tight. -/
theorem Stage.tight_of_below {side : Associativity} (hop : OnLevel ops rank op)
    (hside : op.associativity ≠ side) (hin : ∀ other ∈ t.ops, OnLevel ops rank other ∨ Tight other)
    (h : ∀ other ∈ t.ops, Tree.Below side op other) : ∀ other ∈ t.ops, Tight other := by
  intro other hmem
  rcases h other hmem with hlt | ⟨-, heq, -⟩
  · exact Stage.tight_of_lt (hin other hmem) (hop.1 ▸ hlt)
  · exact absurd heq hside

/-- The operators of a tree are tight, or on the level and lean to one side. -/
def Leans (ops : List (Connective α)) (rank : Nat) (Tight : Ranked α → Prop) (side : Associativity)
    (t : Tree α) : Prop :=
  ∀ op ∈ t.ops, OnLevel ops rank op ∧ op.associativity = side ∨ Tight op

theorem leans_of_tight (side : Associativity) (h : ∀ op ∈ t.ops, Tight op) :
    Leans ops rank Tight side t :=
  fun op hmem => Or.inr (h op hmem)

theorem Leans.here {side : Associativity} (h : Leans ops rank Tight side t) :
    ∀ other ∈ t.ops, OnLevel ops rank other ∨ Tight other :=
  fun other hmem => (h other hmem).imp_left And.left

/-- Below an operator of the level, operators of the level lean to the side where they stand. -/
theorem Stage.leans_of_below {side : Associativity} (hop : OnLevel ops rank op)
    (hin : ∀ other ∈ t.ops, OnLevel ops rank other ∨ Tight other)
    (h : ∀ other ∈ t.ops, Tree.Below side op other) : Leans ops rank Tight side t := by
  intro other hmem
  rcases h other hmem with hlt | ⟨-, -, hother⟩
  · exact Or.inr (Stage.tight_of_lt (hin other hmem) (hop.1 ▸ hlt))
  · exact (hin other hmem).imp_left fun hlevel => ⟨hlevel, hother⟩

/-- A tree of tight operators is read whole when an operator of the level stands behind it. -/
theorem Stage.term_yields (hs : Stage l ops rank Tight) (ht : Stage.Gives l Tight R)
    (hg : t.Grouped) (hin : ∀ other ∈ t.ops, Tight other) (hw : t.WrittenBy R c stop)
    {next : Connective α} (hnext : next ∈ ops) (hc : next.StartsAt stop) :
    l.term.Yields c t.value stop :=
  ht hg hin hw (.quiet fun _ hother => hs.apart hnext hc hother)

/--
What happens at the end of a tree whose root is on the level and whose right part is tight: nothing
of the level follows, or an operator of the level follows that offends, or the right part is
refused.
-/
theorem Stage.behind_rhs (hs : Stage l ops rank Tight) (ht : Stage.Gives l Tight R)
    (hop : OnLevel ops rank op) (hg : rhs.Grouped) (hin : ∀ other ∈ rhs.ops, Tight other)
    (hw : rhs.WrittenBy R c stop)
    (hc : Closes (fun other => OnLevel ops rank other ∨ Tight other) (.node op lhs rhs) stop v) :
    (next ops stop = none ∧ l.term.Yields c rhs.value stop ∧
        v = .accepted (op.combine lhs.value rhs.value) stop) ∨
      (∃ other, next ops stop = some other ∧ l.term.Yields c rhs.value stop ∧
        (op.associativity ≠ other.associativity ∨ op.associativity = .non) ∧
        v = clash stop other) ∨
      ∃ problems, l.term.Gives c (.refused problems stop) ∧ v = .refused problems stop := by
  cases hc with
  | quiet hq =>
    refine Or.inl ⟨?_, ht hg hin hw (.quiet fun other hother => hq other (Or.inr hother)), rfl⟩
    refine next_eq_none_iff.mpr fun other hmem => ?_
    exact hq ⟨other, rank⟩ (Or.inl ⟨rfl, hmem⟩)
  | @offence other hother hstart ho =>
    rw [offends_node_iff (hop.1 ▸ hs.rank_le hother)] at ho
    rcases hother with hlevel | htight
    · -- The right part is tight, so the operator meets the root.
      have hnear : nearest rhs.ops other.rank = none :=
        nearest_eq_none fun inner hmem => hlevel.1 ▸ hs.rank_lt (hin inner hmem)
      have hassoc : op.associativity ≠ other.associativity ∨ op.associativity = .non := by
        rcases ho with ⟨inner, hinner, -⟩ | ⟨-, -, ho⟩
        · rw [hnear] at hinner
          cases hinner
        · exact ho
      exact Or.inr (Or.inl ⟨other.toConnective, hs.next_eq hlevel.2 hstart,
        hs.term_yields ht hg hin hw hlevel.2 hstart, hassoc, rfl⟩)
    · rcases ho with ho | ⟨-, heq, -⟩
      · exact Or.inr (Or.inr ⟨_, ht hg hin hw (.offence htight hstart ho), rfl⟩)
      · have := hs.rank_lt htight
        have := hop.1
        omega

/-! ## From a tree to the run of the level -/

/-- A chain to the left that has been read up to an operator goes on from the value so far. -/
theorem Stage.gives_left (hs : Stage l ops rank Tight) (ht : Stage.Gives l Tight R)
    (hR : ∀ c x stop, R c x stop → stop.rest.length ≤ c.rest.length) (hg : t.Grouped)
    (hin : Leans ops rank Tight .left t) (hw : t.WrittenBy R c stop) {next : Connective α}
    (hnext : next ∈ ops) (hc : next.StartsAt stop) (hleft : next.associativity = .left)
    (hrun : Parser.Gives (l.chainLeft t.value) stop v) : l.parse.Gives c v := by
  -- Induction along the left spine; every operand behind it is a tree of tight operators.
  induction t generalizing stop next with
  | leaf x =>
    have hy := hs.term_yields ht hg (fun _ hmem => absurd hmem List.not_mem_nil) hw hnext hc
    exact hs.spells.parse_chain hy (hs.next_eq hnext hc) (by rw [hleft]; exact hrun)
  | node op lhs rhs ihl _ =>
    rcases hin op (by simp) with ⟨hop, hopl⟩ | hop
    · obtain ⟨mid, hwl, hstart, hwr⟩ := writtenBy_node_iff.mp hw
      have hrhs : ∀ other ∈ rhs.ops, Tight other := Stage.tight_of_below hop
        (by rw [hopl]; decide) (fun other hmem => hin.here other (by simp [hmem])) hg.2.2.2
      refine ihl hg.1 (fun other hmem => hin other (by simp [hmem])) hwl hop.2 hstart hopl ?_
      refine hs.spells.chainLeft_step (hs.next_eq hop.2 hstart) hopl
        (hs.term_yields ht hg.2.1 hrhs hwr hnext hc) ?_ hrun
      exact Nat.lt_of_le_of_lt (hwr.length_le hR)
        (Connective.length_after_lt (hs.text_ne hop.2) hstart)
    · have hy := hs.term_yields ht hg (hs.tight_of_root hg hin.here hop) hw hnext hc
      exact hs.spells.parse_chain hy (hs.next_eq hnext hc) (by rw [hleft]; exact hrun)

/-- What clashes with an operator that leans to a side does not lean to it. -/
theorem ne_of_clash {side : Associativity} {op other : Connective α} (hop : op.associativity = side)
    (hside : side ≠ .non)
    (h : op.associativity ≠ other.associativity ∨ op.associativity = .non) :
    other.associativity ≠ side := by
  subst hop
  rcases h with hne | hnon
  · exact hne.symm
  · exact absurd hnon hside

/-- A chain to the right ends with a right operand of tight operators. -/
theorem Stage.gives_right_last (hs : Stage l ops rank Tight) (ht : Stage.Gives l Tight R)
    (hop : OnLevel ops rank op) (hright : op.associativity = .right) (hstart : op.StartsAt c)
    (hg : rhs.Grouped) (hin : ∀ other ∈ rhs.ops, Tight other)
    (hw : rhs.WrittenBy R (op.after c) stop)
    (hc : Closes (fun other => OnLevel ops rank other ∨ Tight other) (.node op (.leaf x) rhs) stop
      v) :
    Parser.Gives (l.chainRight x) c v := by
  have hnext := hs.next_eq hop.2 hstart
  rcases hs.behind_rhs ht hop hg hin hw hc with
    ⟨hn, hy, rfl⟩ | ⟨other, hn, hy, hassoc, rfl⟩ | ⟨problems, hy, rfl⟩
  · exact hs.spells.chainRight_step x hnext hright hy (hs.spells.rightTail_end c rhs.value hn)
  · have hother := ne_of_clash hright (by decide) hassoc
    exact hs.spells.chainRight_step x hnext hright hy
      (hs.spells.rightTail_clash c rhs.value hn hother)
  · exact hs.spells.chainRight_refused x hnext hright hy

/-- A chain to the right is read from its first operator on. -/
theorem Stage.gives_right (hs : Stage l ops rank Tight) (ht : Stage.Gives l Tight R)
    (hR : ∀ c x stop, R c x stop → stop.rest.length ≤ c.rest.length)
    (hop : OnLevel ops rank op) (hright : op.associativity = .right) (hstart : op.StartsAt c)
    (hg : rhs.Grouped) (hin : Leans ops rank Tight .right rhs)
    (hw : rhs.WrittenBy R (op.after c) stop)
    (hc : Closes (fun other => OnLevel ops rank other ∨ Tight other) (.node op (.leaf x) rhs) stop
      v) :
    Parser.Gives (l.chainRight x) c v := by
  -- Induction along the right spine; the tail of the chain is a chain with the next operator first.
  induction rhs generalizing op x c v with
  | leaf y =>
    exact hs.gives_right_last ht hop hright hstart hg
      (fun _ hmem => absurd hmem List.not_mem_nil) hw hc
  | node inner lhs rhs _ ihr =>
    rcases hin inner (by simp) with ⟨hinner, hinnerr⟩ | hinner
    · obtain ⟨mid, hwl, hstart', hwr⟩ := writtenBy_node_iff.mp hw
      have hlhs : ∀ other ∈ lhs.ops, Tight other := Stage.tight_of_below hinner
        (by rw [hinnerr]; decide) (fun other hmem => hin.here other (by simp [hmem])) hg.2.2.1
      have hy := hs.term_yields ht hg.1 hlhs hwl hinner.2 hstart'
      have hlt : mid.rest.length < c.rest.length := Nat.lt_of_le_of_lt (hwl.length_le hR)
        (Connective.length_after_lt (hs.text_ne hop.2) hstart)
      obtain ⟨w, hw', rfl⟩ := hc.rhs (fun other hother => hop.1 ▸ hs.rank_le hother)
        (hinner.1.trans hop.1.symm)
      have hrec := ihr hinner hinnerr hstart' hg.2.1
        (fun other hmem => hin other (by simp [hmem])) hwr hw'
      exact hs.spells.chainRight_step x (hs.next_eq hop.2 hstart) hright hy
        (hs.spells.rightTail_step (hs.next_eq hinner.2 hstart') hinnerr hlt hrec)
    · exact hs.gives_right_last ht hop hright hstart hg (hs.tight_of_root hg hin.here hinner) hw hc

/-- A tree of tighter operators is an operand with nothing of the level behind it. -/
theorem Stage.gives_tight (hs : Stage l ops rank Tight) (ht : Stage.Gives l Tight R)
    (hg : t.Grouped) (hin : ∀ other ∈ t.ops, Tight other) (hw : t.WrittenBy R c stop)
    (hc : Closes (fun other => OnLevel ops rank other ∨ Tight other) t stop v) :
    l.parse.Gives c v := by
  cases hc with
  | quiet hq =>
    have hy := ht hg hin hw (.quiet fun other hother => hq other (Or.inr hother))
    refine hs.spells.parse_end hy (next_eq_none_iff.mpr fun other hmem => ?_)
    exact hq ⟨other, rank⟩ (Or.inl ⟨rfl, hmem⟩)
  | @offence op hop hstart ho =>
    -- An operator of the level cannot offend against tighter ones.
    have htight : Tight op := by
      obtain ⟨other, hnear, hsame, -⟩ := ho
      have := hs.rank_lt (hin other (mem_of_nearest hnear).1)
      exact Stage.tight_of_lt hop (by omega)
    exact parse_refused (ht hg hin hw (.offence htight hstart ho))

section

/-! The tree has an operator of the level at its root, and is cut there. -/

variable (hs : Stage l ops rank Tight) (ht : Stage.Gives l Tight R) (hop : OnLevel ops rank op)
  (hg : (Tree.node op lhs rhs).Grouped)
  (hlhs : ∀ other ∈ lhs.ops, OnLevel ops rank other ∨ Tight other)
  (hrhs : ∀ other ∈ rhs.ops, OnLevel ops rank other ∨ Tight other)
  (hwl : lhs.WrittenBy R c mid) (hstart : op.StartsAt mid)
  (hwr : rhs.WrittenBy R (op.after mid) stop)
  (hc : Closes (fun other => OnLevel ops rank other ∨ Tight other) (.node op lhs rhs) stop v)
include hs ht hop hg hlhs hrhs hwl hstart hwr hc

/-- A tree whose root groups to the left is a chain to the left. -/
theorem Stage.gives_left_root (hR : ∀ c x stop, R c x stop → stop.rest.length ≤ c.rest.length)
    (ha : op.associativity = .left) : l.parse.Gives c v := by
  have hnext := hs.next_eq hop.2 hstart
  have hlt : stop.rest.length < mid.rest.length := Nat.lt_of_le_of_lt (hwr.length_le hR)
    (Connective.length_after_lt (hs.text_ne hop.2) hstart)
  have htight := Stage.tight_of_below hop (by rw [ha]; decide) hrhs hg.2.2.2
  refine hs.gives_left ht hR hg.1 (Stage.leans_of_below hop hlhs hg.2.2.1) hwl hop.2 hstart ha ?_
  rcases hs.behind_rhs ht hop hg.2.1 htight hwr hc with
    ⟨hn, hy, rfl⟩ | ⟨other, hn, hy, hassoc, rfl⟩ | ⟨problems, hy, rfl⟩
  · exact hs.spells.chainLeft_step hnext ha hy hlt (hs.spells.chainLeft_end hn)
  · have hother := ne_of_clash ha (by decide) hassoc
    exact hs.spells.chainLeft_step hnext ha hy hlt (hs.spells.chainLeft_clash hn hother)
  · exact hs.spells.chainLeft_refused hnext ha hy

theorem Stage.gives_right_root (hR : ∀ c x stop, R c x stop → stop.rest.length ≤ c.rest.length)
    (ha : op.associativity = .right) : l.parse.Gives c v := by
  have htight := Stage.tight_of_below hop (by rw [ha]; decide) hlhs hg.2.2.1
  have hrun := hs.gives_right ht hR hop ha hstart hg.2.1 (Stage.leans_of_below hop hrhs hg.2.2.2)
    hwr (hc.replace_lhs fun other hother => hop.1 ▸ hs.rank_le hother)
  refine hs.spells.parse_chain (hs.term_yields ht hg.1 htight hwl hop.2 hstart)
    (hs.next_eq hop.2 hstart) ?_
  rw [ha]
  exact hrun

/-- A tree whose root does not chain has tight operands. -/
theorem Stage.gives_non_root (ha : op.associativity = .non) : l.parse.Gives c v := by
  have hnext := hs.next_eq hop.2 hstart
  have hleft := Stage.tight_of_below hop (by rw [ha]; decide) hlhs hg.2.2.1
  have hright := Stage.tight_of_below hop (by rw [ha]; decide) hrhs hg.2.2.2
  refine hs.spells.parse_chain (hs.term_yields ht hg.1 hleft hwl hop.2 hstart) hnext ?_
  rw [ha]
  rcases hs.behind_rhs ht hop hg.2.1 hright hwr hc with
    ⟨hn, hy, rfl⟩ | ⟨other, hn, hy, -, rfl⟩ | ⟨problems, hy, rfl⟩
  · exact hs.spells.single_end lhs.value hnext ha hy hn
  · exact hs.spells.single_clash lhs.value hnext ha hy hn
  · exact hs.spells.single_refused lhs.value hnext ha hy

end

/-- **A level makes of every grouped tree what stands behind it asks.** -/
theorem Stage.gives_parse (hs : Stage l ops rank Tight) (ht : Stage.Gives l Tight R)
    (hR : ∀ c x stop, R c x stop → stop.rest.length ≤ c.rest.length) (hg : t.Grouped)
    (hin : ∀ other ∈ t.ops, OnLevel ops rank other ∨ Tight other) (hw : t.WrittenBy R c stop)
    (hc : Closes (fun other => OnLevel ops rank other ∨ Tight other) t stop v) :
    l.parse.Gives c v := by
  cases t with
  | leaf x => exact hs.gives_tight ht hg (fun _ hmem => absurd hmem List.not_mem_nil) hw hc
  | node op lhs rhs =>
    rcases hin op (by simp) with hop | hop
    · obtain ⟨mid, hwl, hstart, hwr⟩ := writtenBy_node_iff.mp hw
      rw [Tree.ops_node, List.forall_mem_append, List.forall_mem_cons] at hin
      obtain ⟨hlhs, -, hrhs⟩ := hin
      cases ha : op.associativity with
      | left => exact hs.gives_left_root ht hop hg hlhs hrhs hwl hstart hwr hc hR ha
      | right => exact hs.gives_right_root ht hop hg hlhs hrhs hwl hstart hwr hc hR ha
      | non => exact hs.gives_non_root ht hop hg hlhs hrhs hwl hstart hwr hc ha
    · exact hs.gives_tight ht hg (hs.tight_of_root hg hin hop) hw hc

/-! ## From a successful run to a tree -/

/-- A success with a value comes from a grouped tree of that value, behind which nothing goes on. -/
structure Parsed (Here : Ranked α → Prop) (R : Cursor → α → Cursor → Prop) (c : Cursor) (value : α)
    (stop : Cursor) (t : Tree α) : Prop where
  grouped : t.Grouped
  here : ∀ op ∈ t.ops, Here op
  written : t.WrittenBy R c stop
  value_eq : t.value = value
  quiet : ∀ op, Here op → ¬op.StartsAt stop

/-- Every success of the term of a level comes from a tree of tighter operators. -/
def Stage.Parses (l : Level α) (Tight : Ranked α → Prop) (R : Cursor → α → Cursor → Prop) : Prop :=
  ∀ {c stop : Cursor} {value : α}, l.term.Yields c value stop →
    ∃ t, Parsed Tight R c value stop t

/-- A tree that leans to a side may stand below an operator of its level there. -/
theorem Stage.below_of_leans (hs : Stage l ops rank Tight) {side : Associativity}
    (hop : op.rank = rank) (h : Leans ops rank Tight side t)
    (hside : op.associativity = side ∨ ∀ other ∈ t.ops, Tight other) :
    ∀ other ∈ t.ops, Tree.Below side op other := by
  intro other hmem
  rcases hside with hside | htight
  · rcases h other hmem with ⟨hlevel, hother⟩ | hother
    · exact Or.inr ⟨hlevel.1.trans hop.symm, hside, hother⟩
    · exact Or.inl (hop ▸ hs.rank_lt hother)
  · exact Or.inl (hop ▸ hs.rank_lt (htight other hmem))

theorem mem_ops_node {other : Ranked α} {P : Ranked α → Prop} (hop : P op)
    (hl : ∀ other ∈ lhs.ops, P other) (hr : ∀ other ∈ rhs.ops, P other)
    (hmem : other ∈ (Tree.node op lhs rhs).ops) : P other := by
  rw [Tree.ops_node, List.mem_append, List.mem_cons] at hmem
  rcases hmem with hmem | rfl | hmem
  · exact hl other hmem
  · exact hop
  · exact hr other hmem

theorem quiet_of_next (hn : next ops c = none) (hq : ∀ op, Tight op → ¬op.StartsAt c) :
    ∀ op, OnLevel ops rank op ∨ Tight op → ¬op.StartsAt c := by
  rintro op (hop | hop)
  · exact next_eq_none_iff.mp hn op.toConnective hop.2
  · exact hq op hop

/-- By induction on what is left: each turn puts one more link at the right end. -/
theorem Stage.parsed_left (hs : Stage l ops rank Tight) (ht : Stage.Parses l Tight R)
    {start : Cursor} {value : α} (hg : t.Grouped) (hin : Leans ops rank Tight .left t)
    (hw : t.WrittenBy R start c) (hq : ∀ op, Tight op → ¬op.StartsAt c)
    (hc : Parser.Yields (l.chainLeft t.value) c value stop) :
    ∃ t, Parsed (fun op => OnLevel ops rank op ∨ Tight op) R start value stop t := by
  -- Induction on what is left to read; the tree read so far grows at its root.
  induction hn : c.rest.length using Nat.strongRecOn generalizing t c with
  | ind n ih =>
    subst hn
    rcases hs.spells.chainLeft_cases hc with ⟨hn, rfl, rfl⟩ | ⟨op, x, mid, hn, hop, hx, hlt, hrec⟩
    · exact ⟨t, hg, hin.here, hw, rfl, quiet_of_next hn hq⟩
    · obtain ⟨hmem, hstart⟩ := mem_of_next hn
      obtain ⟨tx, hgx, hinx, hwx, rfl, hqx⟩ := ht hx
      have hlevel : OnLevel ops rank ⟨op, rank⟩ := ⟨rfl, hmem⟩
      refine ih _ hlt (t := .node ⟨op, rank⟩ t tx) ⟨hg, hgx, ?_, ?_⟩ ?_ ?_ hqx hrec rfl
      · exact hs.below_of_leans rfl hin (Or.inl hop)
      · exact hs.below_of_leans rfl (leans_of_tight .right hinx) (Or.inr hinx)
      · exact fun other => mem_ops_node (Or.inl ⟨hlevel, hop⟩) hin (leans_of_tight .left hinx)
      · exact writtenBy_node_iff.mpr ⟨c, hw, hstart, hwx⟩

/-- By induction on what is left: the rest of the chain is the right operand. -/
theorem Stage.parsed_right (hs : Stage l ops rank Tight) (ht : Stage.Parses l Tight R)
    {start : Cursor} {value : α} (hg : t.Grouped) (hin : ∀ op ∈ t.ops, Tight op)
    (hw : t.WrittenBy R start c) (hc : Parser.Yields (l.chainRight t.value) c value stop) :
    ∃ t, Parsed (fun op => OnLevel ops rank op ∨ Tight op) R start value stop t ∧
      Leans ops rank Tight .right t := by
  -- Induction on what is left to read; the chain behind the next operand is the right part.
  induction hn : c.rest.length using Nat.strongRecOn generalizing t c start value with
  | ind n ih =>
    subst hn
    obtain ⟨op, x, mid, w, hn, hop, hx, htail, rfl⟩ := hs.spells.chainRight_cases hc
    obtain ⟨hmem, hstart⟩ := mem_of_next hn
    obtain ⟨tx, hgx, hinx, hwx, rfl, hqx⟩ := ht hx
    have hlevel : OnLevel ops rank ⟨op, rank⟩ := ⟨rfl, hmem⟩
    have hbelow : ∀ other ∈ t.ops, Tree.Below .left ⟨op, rank⟩ other :=
      hs.below_of_leans rfl (leans_of_tight .left hin) (Or.inr hin)
    have hlean : Leans ops rank Tight .right t := leans_of_tight .right hin
    have hrest : ∃ tr : Tree α,
        Parsed (fun op => OnLevel ops rank op ∨ Tight op) R (op.after c) w stop tr ∧
          Leans ops rank Tight .right tr := by
      rcases hs.spells.rightTail_cases htail with ⟨hn', rfl, rfl⟩ | ⟨other, hn', hop', hlt, hrec⟩
      · exact ⟨tx, ⟨hgx, fun op hmem => Or.inr (hinx op hmem), hwx, rfl, quiet_of_next hn' hqx⟩,
          leans_of_tight .right hinx⟩
      · exact ih _ hlt hgx hinx hwx hrec rfl
    obtain ⟨tr, ⟨hgr, hinr, hwr, rfl, hqr⟩, hleanr⟩ := hrest
    refine ⟨.node ⟨op, rank⟩ t tr, ⟨⟨hg, hgr, hbelow, ?_⟩, ?_, ?_, rfl, hqr⟩, ?_⟩
    · exact hs.below_of_leans rfl hleanr (Or.inl hop)
    · exact fun other => mem_ops_node (Or.inl hlevel) (fun o ho => Or.inr (hin o ho)) hinr
    · exact writtenBy_node_iff.mpr ⟨c, hw, hstart, hwr⟩
    · exact fun other => mem_ops_node (Or.inl ⟨hlevel, hop⟩) hlean hleanr

/-- **Every success of a level comes from a grouped tree.** -/
theorem Stage.parsed_parse (hs : Stage l ops rank Tight) (ht : Stage.Parses l Tight R) {value : α}
    (h : l.parse.Yields c value stop) :
    ∃ t, Parsed (fun op => OnLevel ops rank op ∨ Tight op) R c value stop t := by
  obtain ⟨x, mid, hx, hc⟩ := hs.spells.parse_cases h
  obtain ⟨tx, hgx, hinx, hwx, rfl, hqx⟩ := ht hx
  rcases hc with ⟨hn, rfl, rfl⟩ | ⟨op, hn, hc⟩
  · exact ⟨tx, hgx, fun op hmem => Or.inr (hinx op hmem), hwx, rfl, quiet_of_next hn hqx⟩
  · obtain ⟨hmem, hstart⟩ := mem_of_next hn
    cases ha : op.associativity with
    | left =>
      rw [ha] at hc
      exact hs.parsed_left ht hgx (leans_of_tight .left hinx) hwx hqx hc
    | right =>
      rw [ha] at hc
      obtain ⟨t, ht, -⟩ := hs.parsed_right ht hgx hinx hwx hc
      exact ⟨t, ht⟩
    | non =>
      rw [ha] at hc
      obtain ⟨op', y, hn', hop', hy, hend, rfl⟩ := hs.spells.single_cases hc
      obtain rfl : op = op' := Option.some.inj (hn.symm.trans hn')
      obtain ⟨ty, hgy, hiny, hwy, rfl, hqy⟩ := ht hy
      refine ⟨.node ⟨op, rank⟩ tx ty, ⟨hgx, hgy, ?_, ?_⟩, ?_, ?_, rfl, quiet_of_next hend hqy⟩
      · exact hs.below_of_leans rfl (leans_of_tight .left hinx) (Or.inr hinx)
      · exact hs.below_of_leans rfl (leans_of_tight .right hiny) (Or.inr hiny)
      · exact fun other => mem_ops_node (Or.inl ⟨rfl, hmem⟩) (fun o ho => Or.inr (hinx o ho))
          fun o ho => Or.inr (hiny o ho)
      · exact writtenBy_node_iff.mpr ⟨mid, hwx, hstart, hwy⟩

end

end TypedLambda.Precedence
