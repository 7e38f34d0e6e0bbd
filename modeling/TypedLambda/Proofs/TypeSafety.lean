import TypedLambda.Interpret

/-!
# Type safety with termination

An expression that the checker accepts is evaluated to a value of its type, in every scope whose
values have the types of the context. The interpreter checks before it evaluates, so no text makes
it fail at run time.

The induction is the one behind `HasType.exists_eval`; here it is joined with the checker, with the
uniqueness of outcomes and with the three stages of the interpreter.
-/

namespace TypedLambda

/-- The kind of all values of a type. -/
def Ty.kind : Ty → Kind
  | int => .integer
  | bool => .boolean
  | arrow _ _ => .closure

theorem Ty.Holds.kind_eq {type : Ty} {value : Value} (h : type.Holds value) :
    value.kind = type.kind := by
  cases type with
  | int =>
    obtain ⟨n, rfl⟩ := h
    rfl
  | bool =>
    obtain ⟨b, rfl⟩ := h
    rfl
  | arrow source target =>
    obtain ⟨param, body, scope, rfl, -⟩ := h
    rfl

/-! ## One outcome, and it is a value -/

/-- Some depth is enough for the value, and no depth gives anything else. -/
def Expr.Evaluates (scope : Scope) (e : Expr) (value : Value) : Prop :=
  (∃ depth, e.eval depth scope = some (.ok value)) ∧
    ∀ depth outcome, e.eval depth scope = some outcome → outcome = .ok value

theorem Expr.evaluates_of_eval {scope : Scope} {e : Expr} {value : Value} {depth : Nat}
    (h : e.eval depth scope = some (.ok value)) : e.Evaluates scope value :=
  ⟨⟨depth, h⟩, fun _ _ h' => eval_unique h' h⟩

/-- A checked expression has a value of its type, at some depth and no other value at any. -/
theorem Expr.exists_evaluates_of_check {Γ : Context} {scope : Scope} {e : Expr} {type : Ty}
    (hs : scope.Models Γ) (h : e.check Γ = .ok type) :
    ∃ value, type.Holds value ∧ e.Evaluates scope value := by
  obtain ⟨depth, value, hd, hv⟩ := (HasType.hasType_of_check h).exists_eval hs
  exact ⟨value, hv, evaluates_of_eval hd⟩

/-! ## The stages of the interpreter -/

/-- A text that is not read is answered with the error of the parser. -/
theorem interpret_of_parse_error {source : String} {error : ParseError}
    (h : Expr.parse source = .error error) : interpret source = .error (.parse error) := by
  unfold interpret
  rw [h]

/-- An expression without a type is answered with the error of the checker. -/
theorem interpret_of_check_error {source : String} {e : Expr} {error : TypeError}
    (hp : Expr.parse source = .ok e) (hc : e.check .empty = .error error) :
    interpret source = .error (.type error) := by
  unfold interpret
  rw [hp]
  dsimp only
  split
  · next found hf =>
    rw [hc] at hf
    rw [Except.error.inj hf]
  · next type hf =>
    rw [hc] at hf
    exact absurd hf (by simp)

/-- A text that is read and checked is evaluated, and to a value of its type. -/
theorem interpret_of_check {source : String} {e : Expr} {type : Ty}
    (hp : Expr.parse source = .ok e) (hc : e.check .empty = .ok type) :
    ∃ value, type.Holds value ∧ e.Evaluates .empty value ∧
      interpret source = .ok (value, type) := by
  obtain ⟨value, hv, he⟩ := Expr.exists_evaluates_of_check (Scope.models_empty .empty) hc
  refine ⟨value, hv, he, ?_⟩
  have hval : e.evaluate .empty (Expr.returns_of_check hc) = .ok value :=
    (Expr.evaluate_eq_iff _).mpr he.1
  unfold interpret
  rw [hp]
  dsimp only
  split
  · next found hf =>
    rw [hc] at hf
    exact absurd hf (by simp)
  · next found hf =>
    rw [hc] at hf
    obtain rfl : type = found := Except.ok.inj hf
    rw [hval]

/--
**What checks evaluates to a value of its type, and no text fails at run time.** The interpreter
fails exactly with the error of the stage that fails, reading or checking, and else gives the value
and the type of the expression that it has read.
-/
theorem check_sound_and_interpret_total :
    (∀ (Γ : Context) (scope : Scope) (e : Expr) (type : Ty),
      scope.Models Γ → e.check Γ = .ok type →
        ∃ value, type.Holds value ∧ e.Evaluates scope value) ∧
    ∀ source : String,
      (∃ error, Expr.parse source = .error error ∧ interpret source = .error (.parse error)) ∨
      (∃ e error, Expr.parse source = .ok e ∧ e.check .empty = .error error ∧
        interpret source = .error (.type error)) ∨
      ∃ e value type, Expr.parse source = .ok e ∧ e.check .empty = .ok type ∧
        e.Evaluates .empty value ∧ interpret source = .ok (value, type) ∧
        type.Holds value ∧ value.kind = type.kind := by
  refine ⟨fun Γ scope e type hs hc => Expr.exists_evaluates_of_check hs hc, fun source => ?_⟩
  cases hp : Expr.parse source with
  | error error => exact Or.inl ⟨error, rfl, interpret_of_parse_error hp⟩
  | ok e =>
    cases hc : e.check .empty with
    | error error => exact Or.inr (Or.inl ⟨e, error, rfl, hc, interpret_of_check_error hp hc⟩)
    | ok type =>
      obtain ⟨value, hv, he, hi⟩ := interpret_of_check hp hc
      exact Or.inr (Or.inr ⟨e, value, type, rfl, hc, he, hi, hv, hv.kind_eq⟩)

/-- The closure of the successor function has the type of a function of integers. -/
theorem holds_successor :
    (Ty.arrow .int .int).Holds (.closure "n" (.prim .add (.var "n") (.lit (.int 1))) .empty) := by
  refine ⟨_, _, _, rfl, fun a ha => ?_⟩
  obtain ⟨n, rfl⟩ := ha
  exact ⟨2, _, rfl, n + 1, rfl⟩

/-- A call of a function that the scope gives, in both branches of a conditional. -/
theorem check_sound_and_interpret_total_at_call :
    ∃ value, Ty.int.Holds value ∧
      (Expr.ite (.lit (.bool true)) (.app (.var "f") (.lit (.int 41))) (.lit (.int 0))).Evaluates
        (.bind .empty "f" (.closure "n" (.prim .add (.var "n") (.lit (.int 1))) .empty)) value :=
  check_sound_and_interpret_total.1 (Context.empty.extend "f" (.arrow .int .int)) _ _ _
    ((Scope.models_empty .empty).bind holds_successor) rfl

end TypedLambda
