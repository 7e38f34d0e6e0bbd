import TypedLambda.Typing.Judgement

/-!
# The checker decides the typing judgement

The checker answers a type exactly if the judgement gives it, in every context. It computes one
answer, so an expression has at most one type.

`HasType.hasType_of_check` is one half; the other one is by induction on the judgement, whose rules
say in each case which of the checker's comparisons hold.
-/

namespace TypedLambda

/-! ## Bindings of a context -/

namespace Context

variable {Γ : Context} {name : String} {type : Ty}

/-- A binding of the name with no binding of the same name inside of it. -/
def Innermost (Γ : Context) (name : String) (type : Ty) : Prop :=
  ∃ inner outer, Γ.bindings = inner ++ (name, type) :: outer ∧
    ∀ binding ∈ inner, binding.1 ≠ name

/-- The type that is found is that of the innermost binding. -/
theorem lookup_eq_some_iff : Γ.lookup name = some type ↔ Γ.Innermost name type := by
  unfold lookup Innermost
  rw [List.lookup_eq_some_iff]
  simp only [bne_iff_ne, ne_comm]

theorem lookup_eq_none_iff : Γ.lookup name = none ↔ ∀ type, (name, type) ∉ Γ.bindings := by
  unfold lookup
  rw [List.lookup_eq_none_iff]
  constructor
  · intro h type hmem
    simpa using h (name, type) hmem
  · rintro h ⟨other, type⟩ hmem
    rw [bne_iff_ne]
    rintro rfl
    exact h type hmem

end Context

/-! ## The two directions -/

namespace HasType

variable {Γ : Context} {e : Expr} {type : Ty}

theorem var_iff {name : String} : HasType Γ (.var name) type ↔ Γ.Innermost name type := by
  rw [← Context.lookup_eq_some_iff]
  constructor
  · rintro ⟨h⟩
    exact h
  · exact .var

/-- **What the judgement allows the checker answers.** -/
theorem check_eq_ok (h : HasType Γ e type) : e.check Γ = .ok type := by
  induction h with
  | var h => simp [Expr.check, h]
  | int => rfl
  | bool => rfl
  | arithmetic hop _ _ ihl ihr =>
    rw [Expr.check, ihl, ihr]
    rcases hop with rfl | rfl <;> rfl
  | logic hop _ _ ihl ihr =>
    rw [Expr.check, ihl, ihr]
    rcases hop with rfl | rfl <;> rfl
  | order hop _ _ ihl ihr =>
    rw [Expr.check, ihl, ihr]
    rcases hop with rfl | rfl <;> rfl
  | equality ht _ _ ihl ihr =>
    rw [Expr.check, ihl, ihr]
    rcases ht with rfl | rfl <;> rfl
  | ite _ _ _ ihc iht ihe =>
    rw [Expr.check, ihc, iht, ihe]
    simp [bind, Except.bind]
  | app _ _ ihf iha =>
    rw [Expr.check, ihf, iha]
    simp [bind, Except.bind, Ty.checkApplied]
  | lam _ ih =>
    rw [Expr.check, ih]
    rfl

/-- The checker answers the type that the judgement gives. -/
theorem check_eq_ok_iff : e.check Γ = .ok type ↔ HasType Γ e type :=
  ⟨hasType_of_check, check_eq_ok⟩

/-- An expression has at most one type. -/
theorem unique {type' : Ty} (h : HasType Γ e type) (h' : HasType Γ e type') : type = type' :=
  Except.ok.inj (h.check_eq_ok.symm.trans h'.check_eq_ok)

end HasType

/--
**The checker decides the typing judgement.** It answers a type exactly if the expression has that
type, and then the expression has no other one. The type of a variable is that of its innermost
binding.
-/
theorem check_decides_typing (Γ : Context) (e : Expr) :
    (∀ type, e.check Γ = .ok type ↔ HasType Γ e type) ∧
    (∀ type type', HasType Γ e type → HasType Γ e type' → type = type') ∧
    ∀ name type, HasType Γ (.var name) type ↔ Γ.Innermost name type :=
  ⟨fun _ => HasType.check_eq_ok_iff, fun _ _ h h' => h.unique h', fun _ _ => HasType.var_iff⟩

/-- A parameter hides a binding of the context; of two bindings of a name the inner one counts. -/
theorem check_decides_typing_shadowed :
    HasType (.ofList [("x", .int), ("y", .bool), ("y", .int)])
        (.lam "x" .bool (.ite (.var "x") (.var "y") (.lit (.int 0)))) (.arrow .bool .int) ∧
      ¬HasType (.ofList [("x", .int), ("y", .bool), ("y", .int)])
        (.lam "x" .bool (.ite (.var "x") (.var "y") (.lit (.int 0)))) (.arrow .bool .bool) := by
  obtain ⟨hcheck, hunique, -⟩ :=
    check_decides_typing (.ofList [("x", .int), ("y", .bool), ("y", .int)])
      (.lam "x" .bool (.ite (.var "x") (.var "y") (.lit (.int 0))))
  have htyped := (hcheck (.arrow .bool .int)).mp rfl
  refine ⟨htyped, fun h => ?_⟩
  cases hunique _ _ htyped h

end TypedLambda
