import TypedLambda.Evaluation.Eval

/-!
# Evaluation over integers of any kind

The integers of the language are words of 64 bits. Here evaluation is done over integers of any
kind: the operators are taken from an arithmetic, and all else is as in `Expr.eval`. Two arithmetics
are given, words that wrap around and integers without bounds.

More depth keeps the outcome, so an expression evaluates to at most one value.
-/

namespace TypedLambda

variable {ι : Type}

/-! ## Values over integers of any kind -/

/-- A literal over integers of some kind. -/
inductive LiteralOver (ι : Type) where
  | int (value : ι)
  | bool (value : Bool)

mutual

/-- A value over integers of some kind. -/
inductive ValueOver (ι : Type) where
  | lit (literal : LiteralOver ι)
  | closure (param : String) (body : Expr) (scope : ScopeOver ι)

/-- Names with their values. -/
inductive ScopeOver (ι : Type) where
  | empty
  | bind (outer : ScopeOver ι) (name : String) (value : ValueOver ι)

end

/-- Why an evaluation over integers of some kind fails. -/
inductive RuntimeErrorOver (ι : Type) where
  | undefined (name : String)
  | operand (op : Op) (expected found : Kind)
  | incomparable (left right : Kind)
  | condition (found : Kind)
  | notFunction (found : LiteralOver ι)

/-- A value, a failure, or neither for lack of depth. -/
abbrev OutcomeOver (ι : Type) : Type := Option (Except (RuntimeErrorOver ι) (ValueOver ι))

/-- The value of a name. -/
def ScopeOver.resolve : ScopeOver ι → String → Option (ValueOver ι)
  | empty, _ => none
  | bind outer name value, wanted => if name = wanted then some value else outer.resolve wanted

/-- The kind of a value. -/
def ValueOver.kind : ValueOver ι → Kind
  | lit (.int _) => .integer
  | lit (.bool _) => .boolean
  | closure _ _ _ => .closure

/-- Goes on with the value of an outcome. -/
def OutcomeOver.andThen (o : OutcomeOver ι) (g : ValueOver ι → OutcomeOver ι) : OutcomeOver ι :=
  match o with
  | none => none
  | some (.error e) => some (.error e)
  | some (.ok v) => g v

/-- The outcome of the branch that a condition picks, when both have one. -/
def ValueOver.pick (condition : ValueOver ι) (consequent alternative : OutcomeOver ι) :
    OutcomeOver ι :=
  match consequent, alternative with
  | some yes, some no =>
    match condition with
    | .lit (.bool true) => some yes
    | .lit (.bool false) => some no
    | other => some (.error (.condition other.kind))
  | _, _ => none

/-! ## Operators and evaluation -/

/-- Integers: which of them a literal stands for, and what the operators make of them. -/
structure Arithmetic (ι : Type) where
  /-- The integer that a literal stands for. -/
  literal : Int64 → ι
  add : ι → ι → ι
  mul : ι → ι → ι
  less : ι → ι → Bool
  equal : ι → ι → Bool

namespace Arithmetic

/-- Integers of 64 bits with sign, whose sums and products wrap around. -/
def words : Arithmetic Int64 where
  literal n := n
  add a b := a + b
  mul a b := a * b
  less a b := a < b
  equal a b := a = b

/-- Integers without bounds. -/
def unbounded : Arithmetic Int where
  literal n := n.toInt
  add a b := a + b
  mul a b := a * b
  less a b := a < b
  equal a b := a = b

/-- Applies a function of integers; the first operand that is none is reported. -/
def onInts (op : Op) (g : ι → ι → LiteralOver ι) :
    ValueOver ι → ValueOver ι → Except (RuntimeErrorOver ι) (ValueOver ι)
  | .lit (.int a), .lit (.int b) => .ok (.lit (g a b))
  | .lit (.int _), right => .error (.operand op .integer right.kind)
  | left, _ => .error (.operand op .integer left.kind)

/-- Applies a function of booleans; the first operand that is none is reported. -/
def onBools (op : Op) (g : Bool → Bool → Bool) :
    ValueOver ι → ValueOver ι → Except (RuntimeErrorOver ι) (ValueOver ι)
  | .lit (.bool a), .lit (.bool b) => .ok (.lit (.bool (g a b)))
  | .lit (.bool _), right => .error (.operand op .boolean right.kind)
  | left, _ => .error (.operand op .boolean left.kind)

/-- Compares two integers or two booleans. -/
def compare (equal : ι → ι → Bool) :
    ValueOver ι → ValueOver ι → Except (RuntimeErrorOver ι) (ValueOver ι)
  | .lit (.int a), .lit (.int b) => .ok (.lit (.bool (equal a b)))
  | .lit (.bool a), .lit (.bool b) => .ok (.lit (.bool (a = b)))
  | left, right => .error (.incomparable left.kind right.kind)

/-- The value of an operator applied to two values. -/
def apply (A : Arithmetic ι) :
    Op → ValueOver ι → ValueOver ι → Except (RuntimeErrorOver ι) (ValueOver ι)
  | .add => onInts .add fun a b => .int (A.add a b)
  | .mul => onInts .mul fun a b => .int (A.mul a b)
  | .and => onBools .and fun a b => a && b
  | .or => onBools .or fun a b => a || b
  | .less => onInts .less fun a b => .bool (A.less a b)
  | .greater => onInts .greater fun a b => .bool (A.less b a)
  | .equal => compare A.equal

/-- The literal over these integers. -/
def ofLiteral (A : Arithmetic ι) : Literal → LiteralOver ι
  | .int n => .int (A.literal n)
  | .bool b => .bool b

/-- One level of evaluation, where `run` evaluates the parts and the bodies of closures. -/
def level (A : Arithmetic ι) (run : ScopeOver ι → Expr → OutcomeOver ι) (scope : ScopeOver ι) :
    Expr → OutcomeOver ι
  | .var name =>
    match scope.resolve name with
    | some value => some (.ok value)
    | none => some (.error (.undefined name))
  | .lit literal => some (.ok (.lit (A.ofLiteral literal)))
  | .prim op lhs rhs =>
    (run scope lhs).andThen fun left =>
      (run scope rhs).andThen fun right => some (A.apply op left right)
  | .ite condition consequent alternative =>
    (run scope condition).andThen fun test =>
      test.pick (run scope consequent) (run scope alternative)
  | .app function argument =>
    (run scope function).andThen fun callee =>
      (run scope argument).andThen fun value =>
        match callee with
        | .closure param body outer => run (outer.bind param value) body
        | .lit literal => some (.error (.notFunction literal))
  | .lam param _ body => some (.ok (.closure param body scope))

/-- The outcome of an expression over these integers when evaluations may be nested to a depth. -/
def eval (A : Arithmetic ι) : (depth : Nat) → ScopeOver ι → Expr → OutcomeOver ι
  | 0, _, _ => none
  | depth + 1, scope, e => A.level (A.eval depth) scope e

end Arithmetic

/-! ## More depth keeps the outcome -/

theorem OutcomeOver.andThen_mono {o o' : OutcomeOver ι} {g g' : ValueOver ι → OutcomeOver ι}
    (ho : ∀ r, o = some r → o' = some r) (hg : ∀ v r, g v = some r → g' v = some r)
    {r : Except (RuntimeErrorOver ι) (ValueOver ι)} (h : o.andThen g = some r) :
    o'.andThen g' = some r := by
  match o with
  | none => cases h
  | some (.error e) =>
    rw [ho _ rfl]
    exact h
  | some (.ok v) =>
    rw [ho _ rfl]
    exact hg v r h

theorem ValueOver.pick_mono {condition : ValueOver ι} {yes no yes' no' : OutcomeOver ι}
    (hy : ∀ r, yes = some r → yes' = some r) (hn : ∀ r, no = some r → no' = some r)
    {r : Except (RuntimeErrorOver ι) (ValueOver ι)} (h : condition.pick yes no = some r) :
    condition.pick yes' no' = some r := by
  match yes, no with
  | none, _ => cases h
  | some _, none => cases h
  | some _, some _ =>
    rw [hy _ rfl, hn _ rfl]
    exact h

namespace Arithmetic

variable {A : Arithmetic ι} {scope : ScopeOver ι} {e : Expr}
  {r : Except (RuntimeErrorOver ι) (ValueOver ι)}

/-- A level keeps its outcome when those of the parts are kept. -/
theorem level_mono {run run' : ScopeOver ι → Expr → OutcomeOver ι}
    (hrun : ∀ scope e r, run scope e = some r → run' scope e = some r)
    (h : A.level run scope e = some r) : A.level run' scope e = some r := by
  cases e with
  | var name => exact h
  | lit literal => exact h
  | lam param type body => exact h
  | prim op lhs rhs =>
    refine OutcomeOver.andThen_mono (hrun scope lhs) (fun left r hr => ?_) h
    exact OutcomeOver.andThen_mono (hrun scope rhs) (fun _ _ hright => hright) hr
  | ite condition consequent alternative =>
    refine OutcomeOver.andThen_mono (hrun scope condition) (fun test r hr => ?_) h
    exact ValueOver.pick_mono (hrun scope consequent) (hrun scope alternative) hr
  | app function argument =>
    refine OutcomeOver.andThen_mono (hrun scope function) (fun callee r hr => ?_) h
    refine OutcomeOver.andThen_mono (hrun scope argument) (fun value r hr => ?_) hr
    cases callee with
    | lit literal => exact hr
    | closure param body outer => exact hrun (outer.bind param value) body r hr

theorem eval_succ {depth : Nat} (h : A.eval depth scope e = some r) :
    A.eval (depth + 1) scope e = some r := by
  induction depth generalizing scope e r with
  | zero => cases h
  | succ depth ih => exact level_mono (fun _ _ _ => ih) h

theorem eval_mono {depth depth' : Nat} (h : A.eval depth scope e = some r)
    (hd : depth ≤ depth') : A.eval depth' scope e = some r := by
  induction hd with
  | refl => exact h
  | step _ ih => exact eval_succ ih

/-- Some depth is enough for the value, and no depth gives anything else. -/
def Evaluates (A : Arithmetic ι) (scope : ScopeOver ι) (e : Expr) (value : ValueOver ι) : Prop :=
  (∃ depth, A.eval depth scope e = some (.ok value)) ∧
    ∀ depth outcome, A.eval depth scope e = some outcome → outcome = .ok value

/-- The value at one depth is the only one at any. -/
theorem evaluates_of_eval {depth : Nat} {value : ValueOver ι}
    (h : A.eval depth scope e = some (.ok value)) : A.Evaluates scope e value := by
  refine ⟨⟨depth, h⟩, fun depth' outcome h' => ?_⟩
  have hvalue := eval_mono h (Nat.le_max_left depth depth')
  have houtcome := eval_mono h' (Nat.le_max_right depth depth')
  rw [hvalue] at houtcome
  exact (Option.some.inj houtcome).symm

end Arithmetic

end TypedLambda
