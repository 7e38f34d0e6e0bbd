import Mathlib.Data.List.Induction
import TypedLambda.Parser.Level

/-!
# Chains of operators and their trees

A chain is an operand followed by links, each an operator and an operand. An operator has the rank
of its level, counted from the loosest, and an associativity. A tree groups a chain if reading it
from left to right gives the chain, and it is grouped as the ranks ask if a looser operator is
always nearer the root and operators of one level lean to their common side.

A chain need not have such a tree: an operator offends if it meets an operator of its own level with
which it cannot be grouped. **Main statements:** a chain without an offending operator has a grouped
tree (`Tree.grouped_group`), and no chain has two (`Tree.eq_group`).
-/

namespace TypedLambda.Precedence

/-- A binary operator: its spelling, how it groups and the node that it builds. -/
structure Connective (α : Type) where
  text : String
  associativity : Associativity
  combine : α → α → α

/-- An operator and the number of its level, counted from the loosest. -/
structure Ranked (α : Type) extends Connective α where
  rank : Nat

/-- An operator and the operand that follows it. -/
abbrev Link (α : Type) : Type := Ranked α × α

variable {α : Type}

/-! ## Offending operators -/

/-- The last of some operators that is as loose as a rank or looser. -/
def nearest (earlier : List (Ranked α)) (rank : Nat) : Option (Ranked α) :=
  earlier.reverse.find? (·.rank ≤ rank)

/--
The nearest earlier operator as loose as this one or looser is on the same level, and has another
associativity or none.
-/
def Offends (earlier : List (Ranked α)) (op : Ranked α) : Prop :=
  ∃ other, nearest earlier op.rank = some other ∧ other.rank = op.rank ∧
    (other.associativity ≠ op.associativity ∨ other.associativity = .non)

/-- No operator of the links offends. -/
def Harmonious (links : List (Link α)) : Prop :=
  ∀ earlier op operand later, links = earlier ++ (op, operand) :: later →
    ¬Offends (earlier.map Prod.fst) op

instance (earlier : List (Ranked α)) (op : Ranked α) : Decidable (Offends earlier op) :=
  decidable_of_iff ((nearest earlier op.rank).any fun other => decide (other.rank = op.rank ∧
    (other.associativity ≠ op.associativity ∨ other.associativity = .non))) <| by
      simp [Offends, Option.any_eq_true]

/-- A chain is harmonious if no operator offends against those before it. -/
theorem harmonious_iff {links : List (Link α)} :
    Harmonious links ↔ ∀ i (h : i < links.length),
      ¬Offends ((links.take i).map Prod.fst) (links.get ⟨i, h⟩).1 := by
  constructor
  · intro hh i h
    refine hh (links.take i) _ (links.get ⟨i, h⟩).2 (links.drop (i + 1)) ?_
    show links = links.take i ++ links.get ⟨i, h⟩ :: links.drop (i + 1)
    rw [List.get_eq_getElem, List.getElem_cons_drop, List.take_append_drop]
  · rintro h earlier op operand later rfl
    have hlt : earlier.length < (earlier ++ (op, operand) :: later).length := by simp
    have := h earlier.length hlt
    simpa using this

instance (links : List (Link α)) : Decidable (Harmonious links) :=
  decidable_of_iff _ harmonious_iff.symm

/-- The nearest operator is behind a given one, or it, or before it. -/
theorem nearest_append_cons (before after : List (Ranked α)) (op : Ranked α) (rank : Nat) :
    nearest (before ++ op :: after) rank
      = (nearest after rank).or (if op.rank ≤ rank then some op else nearest before rank) := by
  unfold nearest
  rw [List.reverse_append, List.reverse_cons, List.append_assoc, List.find?_append]
  congr 1
  rw [List.singleton_append, List.find?_cons]
  by_cases h : op.rank ≤ rank <;> simp [h]

theorem nearest_eq_none {ops : List (Ranked α)} {rank : Nat} (h : ∀ op ∈ ops, rank < op.rank) :
    nearest ops rank = none := by
  unfold nearest
  rw [List.find?_eq_none]
  intro op hop
  have := h op (List.mem_reverse.mp hop)
  simpa using this

theorem mem_of_nearest {ops : List (Ranked α)} {rank : Nat} {op : Ranked α}
    (h : nearest ops rank = some op) : op ∈ ops ∧ op.rank ≤ rank :=
  ⟨List.mem_reverse.mp (List.mem_of_find?_eq_some h), by simpa using List.find?_some h⟩

theorem Harmonious.of_append {links more : List (Link α)} (h : Harmonious (links ++ more)) :
    Harmonious links := by
  intro earlier op operand later heq
  refine h earlier op operand (later ++ more) ?_
  rw [heq, List.append_assoc, List.cons_append]

/-! ## Trees -/

inductive Tree (α : Type) where
  | leaf (value : α)
  | node (op : Ranked α) (lhs rhs : Tree α)

namespace Tree

/-- What the operators of a tree build from its operands. -/
def value : Tree α → α
  | leaf value => value
  | node op lhs rhs => op.combine lhs.value rhs.value

/-- The first operand from the left. -/
def first : Tree α → α
  | leaf value => value
  | node _ lhs _ => lhs.first

/-- The operators and the operands behind them, from left to right. -/
def links : Tree α → List (Link α)
  | leaf _ => []
  | node op lhs rhs => lhs.links ++ (op, rhs.first) :: rhs.links

def ops (t : Tree α) : List (Ranked α) := t.links.map Prod.fst

@[simp] theorem ops_leaf (value : α) : (leaf value).ops = [] := rfl

@[simp] theorem ops_node (op : Ranked α) (lhs rhs : Tree α) :
    (node op lhs rhs).ops = lhs.ops ++ op :: rhs.ops := by
  simp [ops, links]

/-- An operator may stand below another on a side: it is tighter, or both lean to that side. -/
def Below (side : Associativity) (above op : Ranked α) : Prop :=
  above.rank < op.rank ∨
    op.rank = above.rank ∧ above.associativity = side ∧ op.associativity = side

/--
A looser operator is always nearer the root. Operators of one level are below each other only on the
left if both group to the left, and only on the right if both group to the right.
-/
def Grouped : Tree α → Prop
  | leaf _ => True
  | node op lhs rhs => lhs.Grouped ∧ rhs.Grouped ∧
    (∀ other ∈ lhs.ops, Below .left op other) ∧ ∀ other ∈ rhs.ops, Below .right op other

instance (side : Associativity) (above op : Ranked α) : Decidable (Below side above op) :=
  inferInstanceAs (Decidable (_ ∨ _))

instance decidableGrouped : (t : Tree α) → Decidable t.Grouped
  | leaf _ => isTrue trivial
  | node _ lhs rhs =>
    have := decidableGrouped lhs
    have := decidableGrouped rhs
    inferInstanceAs (Decidable (_ ∧ _ ∧ _ ∧ _))

/-- An operator is never looser than one that it stands below. -/
theorem Below.rank_le {side : Associativity} {above op : Ranked α} (h : Below side above op) :
    above.rank ≤ op.rank := by
  rcases h with h | ⟨h, -⟩ <;> omega

/-- The root of a grouped tree is one of its loosest operators. -/
theorem Grouped.rank_le {op : Ranked α} {lhs rhs : Tree α} (h : (node op lhs rhs).Grouped) :
    ∀ other ∈ (node op lhs rhs).ops, op.rank ≤ other.rank := by
  obtain ⟨-, -, hl, hr⟩ := h
  intro other hmem
  rw [ops_node, List.mem_append, List.mem_cons] at hmem
  rcases hmem with hmem | rfl | hmem
  · exact (hl other hmem).rank_le
  · exact Nat.le_refl _
  · exact (hr other hmem).rank_le

/-- Below an operator that does not lean to the right, everything on the right is tighter. -/
theorem Grouped.lt_rank_of_rhs {op : Ranked α} {lhs rhs : Tree α} (h : (node op lhs rhs).Grouped)
    (hop : op.associativity ≠ .right) : ∀ other ∈ rhs.ops, op.rank < other.rank := by
  intro other hmem
  rcases h.2.2.2 other hmem with hlt | ⟨-, hright, -⟩
  · exact hlt
  · exact absurd hright hop

/-- The nearest operator of a rank at least the root's is on the right or is the root. -/
theorem nearest_node {op : Ranked α} (lhs rhs : Tree α) {rank : Nat} (h : op.rank ≤ rank) :
    nearest (node op lhs rhs).ops rank = (nearest rhs.ops rank).or (some op) := by
  rw [ops_node, nearest_append_cons, if_pos h]

/-! ## Adding a link -/

/-- The tree with one more link at its right end. -/
def push : Tree α → Link α → Tree α
  | leaf value, (op, operand) => node op (leaf value) (leaf operand)
  | node above lhs rhs, (op, operand) =>
    if above.rank < op.rank ∨ op.rank = above.rank ∧ above.associativity = .right then
      node above lhs (rhs.push (op, operand))
    else node op (node above lhs rhs) (leaf operand)

theorem first_push (t : Tree α) (link : Link α) : (t.push link).first = t.first := by
  cases t with
  | leaf value => rfl
  | node above lhs rhs =>
    obtain ⟨op, operand⟩ := link
    unfold push
    split <;> rfl

theorem links_push (t : Tree α) (link : Link α) : (t.push link).links = t.links ++ [link] := by
  induction t with
  | leaf value => rfl
  | node above lhs rhs _ ihr =>
    obtain ⟨op, operand⟩ := link
    unfold push
    split
    · rw [links, links, first_push, ihr, List.append_assoc, List.cons_append]
    · rfl

theorem ops_push (t : Tree α) (link : Link α) : (t.push link).ops = t.ops ++ [link.1] := by
  rw [ops, links_push, List.map_append]
  rfl

/-- An operator that goes to the right of another one on its level leans to the right too. -/
theorem below_right_of_not_offends {above op : Ranked α} {lhs rhs : Tree α}
    (hg : (node above lhs rhs).Grouped) (ho : ¬Offends (node above lhs rhs).ops op)
    (h : above.rank < op.rank ∨ op.rank = above.rank ∧ above.associativity = .right) :
    Below .right above op := by
  rcases h with h | ⟨hrank, hright⟩
  · exact Or.inl h
  refine Or.inr ⟨hrank, hright, ?_⟩
  have hnear := nearest_node lhs rhs (Nat.le_of_eq hrank.symm)
  refine Decidable.byContradiction fun hne => ho ?_
  cases hr : nearest rhs.ops op.rank with
  | none =>
    rw [hr, Option.none_or] at hnear
    exact ⟨above, hnear, hrank.symm, Or.inl fun heq => hne (heq ▸ hright)⟩
  | some other =>
    rw [hr, Option.some_or] at hnear
    obtain ⟨hmem, hle⟩ := mem_of_nearest hr
    rcases hg.2.2.2 other hmem with hlt | ⟨heq, -, hother⟩
    · omega
    · exact ⟨other, hnear, by omega, Or.inl fun heq' => hne (heq' ▸ hother)⟩

/-- An operator that goes above another one on its level leans to the left like it. -/
theorem below_left_of_not_offends {above op : Ranked α} {lhs rhs : Tree α}
    (hg : (node above lhs rhs).Grouped) (ho : ¬Offends (node above lhs rhs).ops op)
    (h : ¬(above.rank < op.rank ∨ op.rank = above.rank ∧ above.associativity = .right)) :
    ∀ other ∈ (node above lhs rhs).ops, Below .left op other := by
  rw [not_or] at h
  by_cases hrank : op.rank = above.rank
  · have hright : above.associativity ≠ .right := fun heq => h.2 ⟨hrank, heq⟩
    have htight := hg.lt_rank_of_rhs hright
    have hnone : nearest rhs.ops op.rank = none :=
      nearest_eq_none fun other hmem => hrank ▸ htight other hmem
    have hnear := nearest_node lhs rhs (Nat.le_of_eq hrank.symm)
    rw [hnone, Option.none_or] at hnear
    have hsame : above.associativity = op.associativity := by
      refine Decidable.byContradiction fun hne => ho ⟨above, hnear, hrank.symm, Or.inl hne⟩
    have hnon : above.associativity ≠ .non := fun hn => ho ⟨above, hnear, hrank.symm, Or.inr hn⟩
    have hleft : above.associativity = .left := by
      cases ha : above.associativity with
      | non => exact absurd ha hnon
      | left => rfl
      | right => exact absurd ha hright
    intro other hmem
    rw [ops_node, List.mem_append, List.mem_cons] at hmem
    rcases hmem with hmem | rfl | hmem
    · rcases hg.2.2.1 other hmem with hlt | ⟨heq, -, hother⟩
      · exact Or.inl (by omega)
      · exact Or.inr ⟨by omega, hsame ▸ hleft, hother⟩
    · exact Or.inr ⟨hrank.symm, hsame ▸ hleft, hleft⟩
    · exact Or.inl (hrank ▸ htight other hmem)
  · intro other hmem
    have := hg.rank_le other hmem
    exact Or.inl (by omega)

/-- A link that does not offend keeps the tree grouped. -/
theorem grouped_push {t : Tree α} {link : Link α} (hg : t.Grouped) (ho : ¬Offends t.ops link.1) :
    (t.push link).Grouped := by
  induction t with
  | leaf value => exact ⟨trivial, trivial, by simp, by simp⟩
  | node above lhs rhs _ ihr =>
    obtain ⟨op, operand⟩ := link
    unfold push
    split
    · next h =>
      have hop := below_right_of_not_offends hg ho h
      -- The right part ends the tree, so an operator that offends there offends in the whole.
      have hrhs : ¬Offends rhs.ops op := by
        rintro ⟨other, hnear, hother⟩
        refine ho ⟨other, ?_, hother⟩
        rw [nearest_node lhs rhs hop.rank_le, hnear, Option.some_or]
      refine ⟨hg.1, ihr hg.2.1 hrhs, hg.2.2.1, fun other hmem => ?_⟩
      rw [ops_push, List.mem_append, List.mem_singleton] at hmem
      rcases hmem with hmem | rfl
      · exact hg.2.2.2 other hmem
      · exact hop
    · next h => exact ⟨hg, trivial, below_left_of_not_offends hg ho h, by simp⟩

/-! ## The tree of a chain -/

/-- The tree of a chain, made by adding its links one after the other. -/
def group (first : α) (links : List (Link α)) : Tree α := links.foldl push (leaf first)

theorem group_append (first : α) (links : List (Link α)) (link : Link α) :
    group first (links ++ [link]) = (group first links).push link := by
  simp [group]

theorem first_group (first : α) (links : List (Link α)) : (group first links).first = first := by
  induction links using List.reverseRecOn with
  | nil => rfl
  | append_singleton links link ih => rw [group_append, first_push, ih]

/-- Grouping keeps the operators and operands, and their order. -/
theorem links_group (first : α) (links : List (Link α)) : (group first links).links = links := by
  induction links using List.reverseRecOn with
  | nil => rfl
  | append_singleton links link ih => rw [group_append, links_push, ih]

/-- **A chain without an offending operator has a grouped tree.** -/
theorem grouped_group (first : α) {links : List (Link α)} (h : Harmonious links) :
    (group first links).Grouped := by
  induction links using List.reverseRecOn with
  | nil => trivial
  | append_singleton links link ih =>
    rw [group_append]
    refine grouped_push (ih h.of_append) ?_
    rw [ops, links_group]
    exact h links link.1 link.2 [] rfl

/-- Links that all go to the right of an operator leave it where it is. -/
theorem foldl_push_node {op : Ranked α} {lhs : Tree α} (links : List (Link α)) (rhs : Tree α)
    (h : ∀ link ∈ links, Below .right op link.1) :
    links.foldl push (node op lhs rhs) = node op lhs (links.foldl push rhs) := by
  induction links generalizing rhs with
  | nil => rfl
  | cons link links ih =>
    rw [List.forall_mem_cons] at h
    have hcond : op.rank < link.1.rank ∨
        link.1.rank = op.rank ∧ op.associativity = .right := by
      rcases h.1 with hlt | ⟨heq, hright, -⟩
      · exact Or.inl hlt
      · exact Or.inr ⟨heq, hright⟩
    have hpush : (node op lhs rhs).push link = node op lhs (rhs.push link) := by
      obtain ⟨next, operand⟩ := link
      exact if_pos hcond
    rw [List.foldl_cons, List.foldl_cons, hpush, ih _ h.2]

/-- An operator goes above a tree all of whose operators may stand on its left. -/
theorem push_of_below {op : Ranked α} {t : Tree α} (operand : α)
    (h : ∀ other ∈ t.ops, Below .left op other) :
    t.push (op, operand) = node op t (leaf operand) := by
  cases t with
  | leaf value => rfl
  | node above lhs rhs =>
    refine if_neg ?_
    rintro (hlt | ⟨heq, hright⟩)
    · have := (h above (by simp)).rank_le
      omega
    · rcases h above (by simp) with hlt | ⟨-, -, hleft⟩
      · omega
      · rw [hright] at hleft
        cases hleft

/-- **A chain has at most one grouped tree.** -/
theorem eq_group {t : Tree α} (h : t.Grouped) : t = group t.first t.links := by
  induction t with
  | leaf value => rfl
  | node op lhs rhs ihl ihr =>
    -- The links of the left part build it, the root goes above it, all others go to the right.
    obtain ⟨hlg, hrg, hl, hr⟩ := h
    have hlinks : ∀ link ∈ rhs.links, Below .right op link.1 :=
      fun link hmem => hr link.1 (List.mem_map_of_mem hmem)
    have hleft : lhs.links.foldl push (leaf lhs.first) = lhs := (ihl hlg).symm
    have hright : rhs.links.foldl push (leaf rhs.first) = rhs := (ihr hrg).symm
    rw [first, links, group, List.foldl_append, List.foldl_cons, hleft, push_of_below _ hl,
      foldl_push_node _ _ hlinks, hright]

end Tree

end TypedLambda.Precedence
