import TypedLambda.Proofs.Typing.Decision

/-!
# The error of the checker is the first fault

A fault is a place where a rule of typing fails although the parts it speaks of have types. The
checker goes through an expression from left to right and from the inside out, and only a condition
is compared with its required type before the branches are entered. A part is reached in this order
if all that comes before it has a type, and the checker's error is the fault at the part reached.

The error passes through unchanged from a reached part to the whole (`Reaches.check_eq_error`), and
where no part fails the rule of the whole does (`fault_of_check_prim`, `fault_of_checkApplied`).
-/

namespace TypedLambda

/-- The context inside of functions with the given parameters, the outermost function first. -/
def Context.extendAll (Γ : Context) (params : List (String × Ty)) : Context :=
  params.foldl (fun Γ param => Γ.extend param.1 param.2) Γ

/-- The operator takes operands of one fixed type. -/
inductive Op.Takes : Op → Ty → Prop
  | integers {op : Op} (h : op = .add ∨ op = .mul ∨ op = .less ∨ op = .greater) : Takes op .int
  | booleans {op : Op} (h : op = .and ∨ op = .or) : Takes op .bool

/-- The operators that take one fixed type are those with a signature. -/
theorem Op.takes_iff {op : Op} {operand : Ty} :
    op.Takes operand ↔ ∃ result, op.signature = some (operand, result) := by
  constructor
  · rintro (⟨rfl | rfl | rfl | rfl⟩ | ⟨rfl | rfl⟩) <;> exact ⟨_, rfl⟩
  · rintro ⟨result, h⟩
    cases op <;> cases h
    · exact .integers (by simp)
    · exact .integers (by simp)
    · exact .booleans (by simp)
    · exact .booleans (by simp)
    · exact .integers (by simp)
    · exact .integers (by simp)

theorem bind_eq_error_iff {ε α β : Type} {x : Except ε α} {f : α → Except ε β} {error : ε} :
    x >>= f = .error error ↔ x = .error error ∨ ∃ a, x = .ok a ∧ f a = .error error := by
  cases x with
  | error error' => simp [bind, Except.bind]
  | ok a => simp [bind, Except.bind]

namespace Expr

/-! ## Faults and the way to them -/

/-- A rule of typing fails at the expression itself. -/
inductive Fault : Context → Expr → TypeError → Prop
  | unbound {Γ : Context} {name : String} (h : ∀ type, (name, type) ∉ Γ.bindings) :
    Fault Γ (.var name) (.notInScope name)
  | leftOperand {Γ : Context} {op : Op} {lhs rhs : Expr} {operand left right : Ty}
    (hop : op.Takes operand) (hl : HasType Γ lhs left) (hr : HasType Γ rhs right)
    (hne : operand ≠ left) : Fault Γ (.prim op lhs rhs) (.mismatch operand left)
  /-- The left operand has the type that the operator takes and the right one has not. -/
  | rightOperand {Γ : Context} {op : Op} {lhs rhs : Expr} {operand right : Ty}
    (hop : op.Takes operand) (hl : HasType Γ lhs operand) (hr : HasType Γ rhs right)
    (hne : operand ≠ right) : Fault Γ (.prim op lhs rhs) (.mismatch operand right)
  | unlike {Γ : Context} {lhs rhs : Expr} {left right : Ty} (hl : HasType Γ lhs left)
    (hr : HasType Γ rhs right) (hne : left ≠ right) :
    Fault Γ (.prim .equal lhs rhs) (.mismatch left right)
  | functions {Γ : Context} {lhs rhs : Expr} {source target : Ty}
    (hl : HasType Γ lhs (.arrow source target)) (hr : HasType Γ rhs (.arrow source target)) :
    Fault Γ (.prim .equal lhs rhs) (.notComparable (.arrow source target))
  /-- A condition is no boolean; nothing is said about the branches. -/
  | condition {Γ : Context} {condition consequent alternative : Expr} {test : Ty}
    (hc : HasType Γ condition test) (hne : Ty.bool ≠ test) :
    Fault Γ (.ite condition consequent alternative) (.mismatch .bool test)
  /-- The branches have different types; that of the first one is expected. -/
  | branches {Γ : Context} {condition consequent alternative : Expr} {yes no : Ty}
    (hc : HasType Γ condition .bool) (hy : HasType Γ consequent yes)
    (hn : HasType Γ alternative no) (hne : yes ≠ no) :
    Fault Γ (.ite condition consequent alternative) (.mismatch yes no)
  | callee {Γ : Context} {function argument : Expr} {type type' : Ty}
    (hf : HasType Γ function type) (ha : HasType Γ argument type')
    (hne : ∀ source target, type ≠ .arrow source target) :
    Fault Γ (.app function argument) (.notFunction type)
  | argument {Γ : Context} {function argument : Expr} {source target type : Ty}
    (hf : HasType Γ function (.arrow source target)) (ha : HasType Γ argument type)
    (hne : source ≠ type) : Fault Γ (.app function argument) (.mismatch source type)

/--
The checker comes to a part of an expression: what it checks before that part has a type. The list
holds the parameters of the functions entered on the way.
-/
inductive Reaches : Context → Expr → List (String × Ty) → Expr → Prop
  | here {Γ : Context} {e : Expr} : Reaches Γ e [] e
  | lhs {Γ : Context} {op : Op} {lhs rhs part : Expr} {params : List (String × Ty)}
    (h : Reaches Γ lhs params part) : Reaches Γ (.prim op lhs rhs) params part
  | rhs {Γ : Context} {op : Op} {lhs rhs part : Expr} {params : List (String × Ty)} {left : Ty}
    (hl : HasType Γ lhs left) (h : Reaches Γ rhs params part) :
    Reaches Γ (.prim op lhs rhs) params part
  | condition {Γ : Context} {condition consequent alternative part : Expr}
    {params : List (String × Ty)} (h : Reaches Γ condition params part) :
    Reaches Γ (.ite condition consequent alternative) params part
  | consequent {Γ : Context} {condition consequent alternative part : Expr}
    {params : List (String × Ty)} (hc : HasType Γ condition .bool)
    (h : Reaches Γ consequent params part) :
    Reaches Γ (.ite condition consequent alternative) params part
  | alternative {Γ : Context} {condition consequent alternative part : Expr}
    {params : List (String × Ty)} {yes : Ty} (hc : HasType Γ condition .bool)
    (hy : HasType Γ consequent yes) (h : Reaches Γ alternative params part) :
    Reaches Γ (.ite condition consequent alternative) params part
  | function {Γ : Context} {function argument part : Expr} {params : List (String × Ty)}
    (h : Reaches Γ function params part) : Reaches Γ (.app function argument) params part
  | argument {Γ : Context} {function argument part : Expr} {params : List (String × Ty)} {type : Ty}
    (hf : HasType Γ function type) (h : Reaches Γ argument params part) :
    Reaches Γ (.app function argument) params part
  | body {Γ : Context} {param : String} {type : Ty} {body part : Expr}
    {params : List (String × Ty)} (h : Reaches (Γ.extend param type) body params part) :
    Reaches Γ (.lam param type body) ((param, type) :: params) part

/-- The error is the fault at a part that the checker comes to. -/
def FirstFault (Γ : Context) (e : Expr) (error : TypeError) : Prop :=
  ∃ params part, e.Reaches Γ params part ∧ part.Fault (Γ.extendAll params) error

variable {Γ : Context} {error : TypeError}

/-! ## From a fault to the error -/

/-- A fault at the expression itself is reported. -/
theorem Fault.check_eq_error {e : Expr} (h : e.Fault Γ error) : e.check Γ = .error error := by
  cases h with
  | unbound h => simp [check, Context.lookup_eq_none_iff.mpr h]
  | leftOperand hop hl hr hne =>
    obtain ⟨result, hs⟩ := Op.takes_iff.mp hop
    rw [check, hl.check_eq_ok, hr.check_eq_ok]
    simp [bind, Except.bind, Op.check, hs, hne.symm]
  | rightOperand hop hl hr hne =>
    obtain ⟨result, hs⟩ := Op.takes_iff.mp hop
    rw [check, hl.check_eq_ok, hr.check_eq_ok]
    simp [bind, Except.bind, Op.check, hs, hne.symm]
  | unlike hl hr hne =>
    rw [check, hl.check_eq_ok, hr.check_eq_ok]
    simp [bind, Except.bind, Op.check, Op.signature, hne]
  | functions hl hr =>
    rw [check, hl.check_eq_ok, hr.check_eq_ok]
    simp [bind, Except.bind, Op.check, Op.signature, Ty.isArrow]
  | condition hc hne =>
    rw [check, hc.check_eq_ok]
    simp [bind, Except.bind, hne.symm]
  | branches hc hy hn hne =>
    rw [check, hc.check_eq_ok, hy.check_eq_ok, hn.check_eq_ok]
    simp [bind, Except.bind, hne]
  | @callee _ _ type _ hf ha hne =>
    rw [check, hf.check_eq_ok, ha.check_eq_ok]
    cases type with
    | int => rfl
    | bool => rfl
    | arrow source target => exact absurd rfl (hne source target)
  | argument hf ha hne =>
    rw [check, hf.check_eq_ok, ha.check_eq_ok]
    simp [bind, Except.bind, Ty.checkApplied, hne]

/-- **The error of a part that is reached is the error of the whole.** -/
theorem Reaches.check_eq_error {e part : Expr} {params : List (String × Ty)}
    (h : e.Reaches Γ params part) (hp : part.check (Γ.extendAll params) = .error error) :
    e.check Γ = .error error := by
  induction h with
  | here => exact hp
  | lhs _ ih => rw [check, ih hp]; rfl
  | rhs hl _ ih => rw [check, hl.check_eq_ok, ih hp]; rfl
  | condition _ ih => rw [check, ih hp]; rfl
  | consequent hc _ ih => rw [check, hc.check_eq_ok, ih hp]; rfl
  | alternative hc hy _ ih => rw [check, hc.check_eq_ok, hy.check_eq_ok, ih hp]; rfl
  | function _ ih => rw [check, ih hp]; rfl
  | argument hf _ ih => rw [check, hf.check_eq_ok, ih hp]; rfl
  | body _ ih => rw [check, ih hp]; rfl

/-! ## From the error to a fault -/

/-- An operator that refuses typed operands is a fault. -/
theorem fault_of_check_prim {op : Op} {lhs rhs : Expr} {left right : Ty} (hl : HasType Γ lhs left)
    (hr : HasType Γ rhs right) (h : op.check left right = .error error) :
    (Expr.prim op lhs rhs).Fault Γ error := by
  unfold Op.check at h
  split at h
  · next operand result hs =>
    have hop : op.Takes operand := Op.takes_iff.mpr ⟨result, hs⟩
    split at h
    · next hne =>
      cases h
      exact .leftOperand hop hl hr (Ne.symm hne)
    · next heq =>
      obtain rfl : left = operand := Decidable.not_not.mp heq
      split at h
      · next hne =>
        cases h
        exact .rightOperand hop hl hr (Ne.symm hne)
      · cases h
  · next hs =>
    obtain rfl : op = .equal := by cases op <;> simp [Op.signature] at hs ⊢
    split at h
    · next hne =>
      cases h
      exact .unlike hl hr hne
    · next heq =>
      obtain rfl : left = right := Decidable.not_not.mp heq
      split at h
      · next harrow =>
        cases h
        cases left with
        | int => cases harrow
        | bool => cases harrow
        | arrow source target => exact .functions hl hr
      · cases h

theorem fault_of_checkApplied {function argument : Expr} {left right : Ty}
    (hf : HasType Γ function left) (ha : HasType Γ argument right)
    (h : left.checkApplied right = .error error) : (Expr.app function argument).Fault Γ error := by
  cases left with
  | int =>
    cases h
    exact .callee hf ha nofun
  | bool =>
    cases h
    exact .callee hf ha nofun
  | arrow source target =>
    rw [Ty.checkApplied] at h
    split at h
    · next hne =>
      cases h
      exact .argument hf ha hne
    · cases h

theorem firstFault_of_fault {e : Expr} (h : e.Fault Γ error) : e.FirstFault Γ error :=
  ⟨[], e, .here, h⟩

/-- **Where the checker fails there is a fault, and all that comes before it has a type.** -/
theorem firstFault_of_check {e : Expr} (h : e.check Γ = .error error) : e.FirstFault Γ error := by
  induction e generalizing Γ with
  | var name =>
    unfold check at h
    split at h
    · cases h
    · next hnone =>
      cases h
      exact firstFault_of_fault (.unbound (Context.lookup_eq_none_iff.mp hnone))
  | lit literal => cases h
  | prim op lhs rhs ihl ihr =>
    rcases bind_eq_error_iff.mp h with h | ⟨left, hl, h⟩
    · obtain ⟨params, part, hr, hf⟩ := ihl h
      exact ⟨params, part, .lhs hr, hf⟩
    have hl := HasType.hasType_of_check hl
    rcases bind_eq_error_iff.mp h with h | ⟨right, hr, h⟩
    · obtain ⟨params, part, hr, hf⟩ := ihr h
      exact ⟨params, part, .rhs hl hr, hf⟩
    have hr := HasType.hasType_of_check hr
    exact firstFault_of_fault (fault_of_check_prim hl hr h)
  | ite condition consequent alternative ihc ihy ihn =>
    rcases bind_eq_error_iff.mp h with h | ⟨test, hc, h⟩
    · obtain ⟨params, part, hr, hf⟩ := ihc h
      exact ⟨params, part, .condition hr, hf⟩
    have hc := HasType.hasType_of_check hc
    split at h
    · next hne =>
      cases h
      exact firstFault_of_fault (.condition hc (Ne.symm hne))
    next heq =>
    obtain rfl : test = .bool := Decidable.not_not.mp heq
    rcases bind_eq_error_iff.mp h with h | ⟨yes, hy, h⟩
    · obtain ⟨params, part, hr, hf⟩ := ihy h
      exact ⟨params, part, .consequent hc hr, hf⟩
    have hy := HasType.hasType_of_check hy
    rcases bind_eq_error_iff.mp h with h | ⟨no, hn, h⟩
    · obtain ⟨params, part, hr, hf⟩ := ihn h
      exact ⟨params, part, .alternative hc hy hr, hf⟩
    have hn := HasType.hasType_of_check hn
    split at h
    · next hne =>
      cases h
      exact firstFault_of_fault (.branches hc hy hn hne)
    · cases h
  | app function argument ihf iha =>
    rcases bind_eq_error_iff.mp h with h | ⟨left, hf, h⟩
    · obtain ⟨params, part, hr, hf⟩ := ihf h
      exact ⟨params, part, .function hr, hf⟩
    have hf := HasType.hasType_of_check hf
    rcases bind_eq_error_iff.mp h with h | ⟨right, ha, h⟩
    · obtain ⟨params, part, hr, hf'⟩ := iha h
      exact ⟨params, part, .argument hf hr, hf'⟩
    have ha := HasType.hasType_of_check ha
    exact firstFault_of_fault (fault_of_checkApplied hf ha h)
  | lam param type body ih =>
    rcases bind_eq_error_iff.mp h with h | ⟨target, _, h⟩
    · obtain ⟨params, part, hr, hf⟩ := ih h
      exact ⟨(param, type) :: params, part, .body hr, hf⟩
    · cases h

/--
**The error of the checker is the first fault**: a rule fails at a part of the expression, the error
says how, and everything that is checked before that part has a type in its own context.
-/
theorem check_eq_error_iff_firstFault (Γ : Context) (e : Expr) (error : TypeError) :
    e.check Γ = .error error ↔
      ∃ params part, e.Reaches Γ params part ∧ part.Fault (Γ.extendAll params) error := by
  constructor
  · exact firstFault_of_check
  · rintro ⟨params, part, hr, hf⟩
    exact hr.check_eq_error hf.check_eq_error

/-- An argument is checked before its callee is found to be no function. -/
example : check .empty (.app (.lit (.int 1)) (.lam "x" .int (.var "y"))) =
    .error (.notInScope "y") := rfl

end Expr

end TypedLambda
