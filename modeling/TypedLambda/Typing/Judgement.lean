import TypedLambda.Typing.Check

/-!
# The typing judgement

The rules by which an expression has a type in a context, stated without the checker. **Main
statement:** what the checker answers is a judgement (`hasType_of_check`).
-/

namespace TypedLambda

/-- An expression has a type in a context. -/
inductive HasType : Context → Expr → Ty → Prop where
  | var {Γ : Context} {name : String} {type : Ty} (h : Γ.lookup name = some type) :
    HasType Γ (.var name) type
  | int {Γ : Context} {n : Int64} : HasType Γ (.lit (.int n)) .int
  | bool {Γ : Context} {b : Bool} : HasType Γ (.lit (.bool b)) .bool
  | arithmetic {Γ : Context} {op : Op} {lhs rhs : Expr} (hop : op = .add ∨ op = .mul)
    (hl : HasType Γ lhs .int) (hr : HasType Γ rhs .int) : HasType Γ (.prim op lhs rhs) .int
  | logic {Γ : Context} {op : Op} {lhs rhs : Expr} (hop : op = .and ∨ op = .or)
    (hl : HasType Γ lhs .bool) (hr : HasType Γ rhs .bool) : HasType Γ (.prim op lhs rhs) .bool
  | order {Γ : Context} {op : Op} {lhs rhs : Expr} (hop : op = .less ∨ op = .greater)
    (hl : HasType Γ lhs .int) (hr : HasType Γ rhs .int) : HasType Γ (.prim op lhs rhs) .bool
  /-- Two integers, or two booleans, can be compared for equality. -/
  | equality {Γ : Context} {lhs rhs : Expr} {type : Ty} (ht : type = .int ∨ type = .bool)
    (hl : HasType Γ lhs type) (hr : HasType Γ rhs type) : HasType Γ (.prim .equal lhs rhs) .bool
  | ite {Γ : Context} {condition consequent alternative : Expr} {type : Ty}
    (hc : HasType Γ condition .bool) (ht : HasType Γ consequent type)
    (he : HasType Γ alternative type) : HasType Γ (.ite condition consequent alternative) type
  | app {Γ : Context} {function argument : Expr} {source target : Ty}
    (hf : HasType Γ function (.arrow source target)) (ha : HasType Γ argument source) :
    HasType Γ (.app function argument) target
  | lam {Γ : Context} {param : String} {source target : Ty} {body : Expr}
    (hb : HasType (Γ.extend param source) body target) :
    HasType Γ (.lam param source body) (.arrow source target)

namespace HasType

variable {Γ : Context}

/-- An operator whose operands have types that it accepts has the type that it answers. -/
theorem prim_of_check {op : Op} {lhs rhs : Expr} {left right type : Ty}
    (hl : HasType Γ lhs left) (hr : HasType Γ rhs right) (h : op.check left right = .ok type) :
    HasType Γ (.prim op lhs rhs) type := by
  unfold Op.check at h
  split at h
  · next operand result hs =>
    split at h
    · simp at h
    · next hleft =>
      split at h
      · simp at h
      · next hright =>
        obtain rfl : left = operand := Decidable.not_not.mp hleft
        obtain rfl : right = left := Decidable.not_not.mp hright
        obtain rfl : result = type := Except.ok.inj h
        cases op <;> simp only [Op.signature, Option.some.injEq, Prod.mk.injEq, reduceCtorEq] at hs
          <;> obtain ⟨rfl, rfl⟩ := hs
        · exact .arithmetic (Or.inl rfl) hl hr
        · exact .arithmetic (Or.inr rfl) hl hr
        · exact .logic (Or.inl rfl) hl hr
        · exact .logic (Or.inr rfl) hl hr
        · exact .order (Or.inl rfl) hl hr
        · exact .order (Or.inr rfl) hl hr
  · next hs =>
    split at h
    · simp at h
    · next heq =>
      split at h
      · simp at h
      · next harrow =>
        obtain rfl : left = right := Decidable.not_not.mp heq
        obtain rfl : Ty.bool = type := Except.ok.inj h
        have hop : op = .equal := by cases op <;> simp [Op.signature] at hs ⊢
        subst hop
        refine .equality ?_ hl hr
        cases left with
        | int => exact Or.inl rfl
        | bool => exact Or.inr rfl
        | arrow source target => exact absurd rfl harrow

/-- **The checker answers only what the judgement allows.** -/
theorem hasType_of_check {e : Expr} {type : Ty} (h : e.check Γ = .ok type) :
    HasType Γ e type := by
  induction e generalizing Γ type with
  | var name =>
    unfold Expr.check at h
    split at h
    · next found hf =>
      obtain rfl : found = type := Except.ok.inj h
      exact .var hf
    · simp at h
  | lit literal =>
    obtain rfl : literal.type = type := Except.ok.inj h
    cases literal with
    | int => exact .int
    | bool => exact .bool
  | prim op lhs rhs ihl ihr =>
    simp only [Expr.check, bind, Except.bind] at h
    split at h
    · simp at h
    · next left hl =>
      split at h
      · simp at h
      · next right hr => exact prim_of_check (ihl hl) (ihr hr) h
  | ite condition consequent alternative ihc iht ihe =>
    simp only [Expr.check, bind, Except.bind] at h
    split at h
    · simp at h
    · next test hc =>
      split at h
      · simp at h
      · next htest =>
        obtain rfl : test = .bool := Decidable.not_not.mp htest
        split at h
        · simp at h
        · next yes hy =>
          split at h
          · simp at h
          · next no hn =>
            split at h
            · simp at h
            · next hsame =>
              obtain rfl : yes = no := Decidable.not_not.mp hsame
              obtain rfl : yes = type := Except.ok.inj h
              exact .ite (ihc hc) (iht hy) (ihe hn)
  | app function argument ihf iha =>
    simp only [Expr.check, bind, Except.bind] at h
    split at h
    · simp at h
    · next left hl =>
      split at h
      · simp at h
      · next right hr =>
        unfold Ty.checkApplied at h
        split at h
        · next source target =>
          split at h
          · simp at h
          · next hsame =>
            obtain rfl : source = right := Decidable.not_not.mp hsame
            obtain rfl : target = type := Except.ok.inj h
            exact .app (ihf hl) (iha hr)
        · simp at h
  | lam param source body ih =>
    simp only [Expr.check, bind, Except.bind] at h
    split at h
    · simp at h
    · next target hb =>
      obtain rfl : Ty.arrow source target = type := Except.ok.inj h
      exact .lam (ih hb)

end HasType

end TypedLambda
