import Mathlib.Data.List.Forall2
import TypedLambda.Proofs.Parser.Outcome

/-!
# Choices inside choices

A choice that is an alternative of another choice may be replaced by its own alternatives. Nothing
is asked of the alternatives: one that fails without progress may have moved the cursor, as parsers
with hidden progress do, and others may never end.

Two alternatives group either way (`Parser.orElse_assoc`). The choice of no alternatives is neutral
only beside parsers that go back where they fail without progress (`Parser.Restores`). A parser need
not do so on its own, but every choice does, whatever its alternatives are.

**Main statement:** `Parser.nested_choice_flattens`.
-/

namespace TypedLambda

namespace Parser

variable {α : Type} {p q : Parser α} {c : Cursor} {problems more : List DeadEnd}

/-- Fails without progress and reports dead ends, wherever it has moved the cursor. -/
def PassesWith (p : Parser α) (c : Cursor) (problems : List DeadEnd) : Prop :=
  ∃ stop, p c = some ⟨.bad false problems, stop⟩

/-- Where it fails without progress, the cursor is back at the start. -/
def Restores (p : Parser α) : Prop :=
  ∀ ⦃c problems stop⦄, p c = some ⟨.bad false problems, stop⟩ → stop = c

/-! ## Two alternatives -/

/-- If both pass, the reports are put together and the cursor goes back. -/
theorem orElse_of_both (hp : p.PassesWith c problems) (hq : q.PassesWith c more) :
    p.orElse q c = some ⟨.bad false (problems ++ more), c⟩ := by
  obtain ⟨stop, hp⟩ := hp
  obtain ⟨stop', hq⟩ := hq
  simp only [orElse, hp, hq]

theorem restores_nothing : (nothing : Parser α).Restores := by
  intro c problems stop h
  cases h
  rfl

/-- A choice goes back to its start when both alternatives are passed over. -/
theorem restores_orElse (p q : Parser α) : (p.orElse q).Restores := by
  intro c problems stop h
  obtain ⟨⟨first, hp⟩, ⟨second, hq⟩⟩ := passes_orElse_iff.mp ⟨problems, stop, h⟩
  rw [orElse_of_both hp hq] at h
  cases h
  rfl

/-- The empty choice on the left changes nothing, if a failure leaves the cursor at the start. -/
theorem nothing_orElse (hp : p.Restores) : nothing.orElse p = p := by
  funext c
  by_cases h : p.Passes c
  · obtain ⟨problems, stop, h⟩ := h
    obtain rfl := hp h
    rw [orElse_of_both ⟨stop, rfl⟩ ⟨stop, h⟩, h, List.nil_append]
  · exact orElse_of_passes passes_nothing h

/-- The empty choice on the right changes nothing, if a failure leaves the cursor at the start. -/
theorem orElse_nothing (hp : p.Restores) : p.orElse nothing = p := by
  funext c
  by_cases h : p.Passes c
  · obtain ⟨problems, stop, h⟩ := h
    obtain rfl := hp h
    rw [orElse_of_both ⟨stop, h⟩ ⟨stop, rfl⟩, h, List.append_nil]
  · exact orElse_of_not_passes h

/-- **It does not matter how three alternatives are grouped.** -/
theorem orElse_assoc (p q r : Parser α) : (p.orElse q).orElse r = p.orElse (q.orElse r) := by
  funext c
  -- the first alternative that does not pass decides on both sides
  by_cases hp : p.Passes c
  · by_cases hq : q.Passes c
    · have hpq : (p.orElse q).Passes c := passes_orElse_iff.mpr ⟨hp, hq⟩
      by_cases hr : r.Passes c
      · obtain ⟨first, hp⟩ := hp
        obtain ⟨second, hq⟩ := hq
        obtain ⟨third, hr⟩ := hr
        have hleft := orElse_of_both hp hq
        have hright := orElse_of_both hq hr
        rw [orElse_of_both ⟨c, hleft⟩ hr, orElse_of_both hp ⟨c, hright⟩, List.append_assoc]
      · have hqr : ¬(q.orElse r).Passes c := fun h => hr (passes_orElse_iff.mp h).2
        rw [orElse_of_passes hpq hr, orElse_of_passes hp hqr, orElse_of_passes hq hr]
    · have hpq : ¬(p.orElse q).Passes c := fun h => hq (passes_orElse_iff.mp h).2
      have hqr : ¬(q.orElse r).Passes c := fun h => hq (passes_orElse_iff.mp h).1
      rw [orElse_of_not_passes hpq, orElse_of_passes hp hq, orElse_of_passes hp hqr,
        orElse_of_not_passes hq]
  · have hpq : ¬(p.orElse q).Passes c := fun h => hp (passes_orElse_iff.mp h).1
    rw [orElse_of_not_passes hpq, orElse_of_not_passes hp, orElse_of_not_passes hp]

/-! ## Any number of alternatives -/

theorem restores_oneOf (ps : List (Parser α)) : (oneOf ps).Restores := by
  cases ps with
  | nil => exact restores_nothing
  | cons p ps => exact restores_orElse p (oneOf ps)

/-- A choice may be cut in two anywhere. -/
theorem oneOf_append (ps qs : List (Parser α)) :
    oneOf (ps ++ qs) = (oneOf ps).orElse (oneOf qs) := by
  induction ps with
  | nil => exact (nothing_orElse (restores_oneOf qs)).symm
  | cons p ps ih =>
    show p.orElse (oneOf (ps ++ qs)) = (p.orElse (oneOf ps)).orElse (oneOf qs)
    rw [ih, orElse_assoc]

theorem oneOf_oneOf (ps : List (Parser α)) : oneOf [oneOf ps] = oneOf ps :=
  orElse_nothing (restores_oneOf ps)

/-- A choice whose alternatives all pass reports what they report, in order, and goes back. -/
theorem oneOf_of_passes {ps : List (Parser α)} {reports : List (List DeadEnd)}
    (h : List.Forall₂ (fun p problems => p.PassesWith c problems) ps reports) :
    oneOf ps c = some ⟨.bad false reports.flatten, c⟩ := by
  induction h with
  | nil => rfl
  | cons hp _ ih => exact orElse_of_both hp ⟨c, ih⟩

/--
**A choice inside a choice may be replaced by its alternatives**, whatever they are: from every
cursor the two choices end with the same step at the same cursor, or neither ends. Where every
alternative fails without progress, the step has all that they report, in order, and the cursor is
back at the start, however far they have moved it.
-/
theorem nested_choice_flattens (xs ys zs : List (Parser α)) :
    oneOf (xs ++ [oneOf ys] ++ zs) = oneOf (xs ++ ys ++ zs) ∧
    ∀ (c : Cursor) (reports : List (List DeadEnd)),
      List.Forall₂ (fun p problems => p.PassesWith c problems) (xs ++ ys ++ zs) reports →
      oneOf (xs ++ [oneOf ys] ++ zs) c = some ⟨.bad false reports.flatten, c⟩ := by
  have hflat : oneOf (xs ++ [oneOf ys] ++ zs) = oneOf (xs ++ ys ++ zs) := by
    rw [oneOf_append, oneOf_append xs, oneOf_oneOf, oneOf_append, oneOf_append xs]
  refine ⟨hflat, fun c reports h => ?_⟩
  rw [hflat]
  exact oneOf_of_passes h

/-- An arrow whose progress is hidden. -/
def hiddenArrow : Parser Unit := backtrackable ((symbol "-").bind fun _ => symbol ">")

/-- The arrow stands twice, within the inner choice and behind it, and moves over the minus sign. -/
theorem nested_choice_flattens_arrow :
    hiddenArrow (.start "-") =
      some ⟨.bad false [⟨1, 2, .expectingSymbol ">"⟩], (Cursor.start "-").advanceBy 1⟩ ∧
    oneOf ([symbol "+"] ++ [oneOf [hiddenArrow, symbol "*"]] ++ [hiddenArrow]) (.start "-") =
      some ⟨.bad false [⟨1, 1, .expectingSymbol "+"⟩, ⟨1, 2, .expectingSymbol ">"⟩,
        ⟨1, 1, .expectingSymbol "*"⟩, ⟨1, 2, .expectingSymbol ">"⟩], .start "-"⟩ := by
  have harrow : hiddenArrow (.start "-") =
      some ⟨.bad false [⟨1, 2, .expectingSymbol ">"⟩], (Cursor.start "-").advanceBy 1⟩ := by
    decide
  have hsymbol : ∀ text ∈ ["+", "*"], symbol text (.start "-") =
      some ⟨.bad false [⟨1, 1, .expectingSymbol text⟩], .start "-"⟩ := by
    decide
  have hflat := (nested_choice_flattens [symbol "+"] [hiddenArrow, symbol "*"] [hiddenArrow]).2 _ _
    (.cons ⟨_, hsymbol "+" (by decide)⟩ (.cons ⟨_, harrow⟩
      (.cons ⟨_, hsymbol "*" (by decide)⟩ (.cons ⟨_, harrow⟩ .nil))))
  exact ⟨harrow, hflat⟩

end Parser

end TypedLambda
