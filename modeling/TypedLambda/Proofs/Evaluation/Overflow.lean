import TypedLambda.Proofs.Evaluation.Arithmetic
import TypedLambda.Proofs.Expressions
import TypedLambda.Proofs.TypeSafety

/-!
# Overflow is one final wrap

A function from some integers to words that respects the operators of an expression takes what the
expression evaluates to over those integers to what it evaluates to over words
(`Arithmetic.eval_reduces`). The proof goes level by level; integers that closures capture are taken
to words with them.

The identity respects all operators, so evaluation over words is `Expr.eval`. Wrapping an unbounded
integer around to a word respects sums and products, but no comparison. So in an expression without
comparisons overflow on the way has no effect: the result is the unbounded one, wrapped around once.
-/

namespace TypedLambda

variable {ι : Type}

/-! ## From some integers to words -/

section

variable (f : ι → Int64)

/-- The literal with its integer taken to a word. -/
def LiteralOver.reduce : LiteralOver ι → Literal
  | .int n => .int (f n)
  | .bool b => .bool b

mutual

/-- The value with all integers taken to words, inside captured scopes as well. -/
def ValueOver.reduce : ValueOver ι → Value
  | .lit literal => .lit (literal.reduce f)
  | .closure param body scope => .closure param body scope.reduce

/-- The scope with all integers taken to words. -/
def ScopeOver.reduce : ScopeOver ι → Scope
  | .empty => .empty
  | .bind outer name value => .bind outer.reduce name value.reduce

end

/-- The failure with the integer that it shows, if any, taken to a word. -/
def RuntimeErrorOver.reduce : RuntimeErrorOver ι → RuntimeError
  | .undefined name => .undefined name
  | .operand op expected found => .operand op expected found
  | .incomparable left right => .incomparable left right
  | .condition found => .condition found
  | .notFunction found => .notFunction (found.reduce f)

/-- The outcome with all integers taken to words. -/
def OutcomeOver.reduce : OutcomeOver ι → Outcome
  | none => none
  | some (.error e) => some (.error (e.reduce f))
  | some (.ok v) => some (.ok (v.reduce f))

/-- Taking integers to words commutes with what an operator makes of them. -/
def Arithmetic.Respects (A : Arithmetic ι) : Op → Prop
  | .add => ∀ a b, f (A.add a b) = f a + f b
  | .mul => ∀ a b, f (A.mul a b) = f a * f b
  | .less | .greater => ∀ a b, A.less a b = decide (f a < f b)
  | .equal => ∀ a b, A.equal a b = decide (f a = f b)
  | .and | .or => True

end

/-! ## The operators of an expression -/

/-- The operators that occur in an expression. -/
def Expr.ops : Expr → List Op
  | var _ | lit _ => []
  | prim op lhs rhs => op :: (lhs.ops ++ rhs.ops)
  | ite condition consequent alternative => condition.ops ++ consequent.ops ++ alternative.ops
  | app function argument => function.ops ++ argument.ops
  | lam _ _ body => body.ops

mutual

/-- All operators in the bodies of closures have a property, inside captured scopes as well. -/
def ValueOver.Uses (P : Op → Prop) : ValueOver ι → Prop
  | .lit _ => True
  | .closure _ body scope => (∀ op ∈ body.ops, P op) ∧ scope.Uses P

/-- All operators in the bodies of closures have a property. -/
def ScopeOver.Uses (P : Op → Prop) : ScopeOver ι → Prop
  | .empty => True
  | .bind outer _ value => outer.Uses P ∧ value.Uses P

end

/-! ## One level -/

/-- The second outcome is the first one over words, and closures use operators with a property. -/
inductive OutcomeOver.Reduces (f : ι → Int64) (P : Op → Prop) : OutcomeOver ι → Outcome → Prop
  | none : Reduces f P none none
  | error (e : RuntimeErrorOver ι) : Reduces f P (some (.error e)) (some (.error (e.reduce f)))
  | value {v : ValueOver ι} (h : v.Uses P) : Reduces f P (some (.ok v)) (some (.ok (v.reduce f)))

section

variable {f : ι → Int64} {P : Op → Prop} {A : Arithmetic ι} {scope : ScopeOver ι}
  {o : OutcomeOver ι} {o' : Outcome}

/-- Names are resolved before or after integers are taken to words. -/
theorem ScopeOver.resolve_reduce (scope : ScopeOver ι) (x : String) :
    (scope.reduce f).resolve x = (scope.resolve x).map (ValueOver.reduce f) := by
  match scope with
  | .empty => rfl
  | .bind outer name value =>
    rw [ScopeOver.reduce, Scope.resolve, resolve]
    by_cases hname : name = x
    · rw [if_pos hname, if_pos hname]
      rfl
    · rw [if_neg hname, if_neg hname]
      exact resolve_reduce outer x

theorem ScopeOver.Uses.resolve {scope : ScopeOver ι} {x : String} {value : ValueOver ι}
    (h : scope.Uses P) (hx : scope.resolve x = some value) : value.Uses P := by
  match scope with
  | .empty => cases hx
  | .bind outer name bound =>
    rw [ScopeOver.resolve] at hx
    split at hx
    · cases hx
      exact h.2
    · exact Uses.resolve h.1 hx

theorem ValueOver.kind_reduce (v : ValueOver ι) : (v.reduce f).kind = v.kind := by
  match v with
  | .lit (.int _) => rfl
  | .lit (.bool _) => rfl
  | .closure _ _ _ => rfl

namespace OutcomeOver.Reduces

theorem eq_reduce (h : o.Reduces f P o') : o' = o.reduce f := by
  cases h <;> rfl

theorem none_or_some (h : o.Reduces f P o') :
    o = .none ∧ o' = .none ∨ ∃ r r', o = some r ∧ o' = some r' := by
  cases h with
  | none => exact Or.inl ⟨rfl, rfl⟩
  | error e => exact Or.inr ⟨_, _, rfl, rfl⟩
  | value hv => exact Or.inr ⟨_, _, rfl, rfl⟩

theorem andThen (h : o.Reduces f P o') {g : ValueOver ι → OutcomeOver ι} {g' : Value → Outcome}
    (hg : ∀ v, v.Uses P → (g v).Reduces f P (g' (v.reduce f))) :
    (o.andThen g).Reduces f P (o'.andThen g') := by
  cases h with
  | none => exact .none
  | error e => exact .error e
  | value hv => exact hg _ hv

/-- Conditionals are related if both branches are, as booleans are no integers. -/
theorem pick (test : ValueOver ι) {yes no : OutcomeOver ι} {yes' no' : Outcome}
    (hy : yes.Reduces f P yes') (hn : no.Reduces f P no') :
    (test.pick yes no).Reduces f P ((test.reduce f).pick yes' no') := by
  obtain ⟨rfl, rfl⟩ | ⟨r, r', rfl, rfl⟩ := hy.none_or_some
  · exact .none
  obtain ⟨rfl, rfl⟩ | ⟨s, s', rfl, rfl⟩ := hn.none_or_some
  · exact .none
  match test with
  | .lit (.bool true) => exact hy
  | .lit (.bool false) => exact hn
  | .lit (.int _) => exact .error _
  | .closure _ _ _ => exact .error _

end OutcomeOver.Reduces

namespace Arithmetic

/-- A function of integers is related to one of words if it commutes with taking to words. -/
theorem onInts_reduces (op : Op) {g : ι → ι → LiteralOver ι} {g' : Int64 → Int64 → Literal}
    (hg : ∀ a b, (g a b).reduce f = g' (f a) (f b)) (v w : ValueOver ι) :
    OutcomeOver.Reduces f P (some (onInts op g v w))
      (some (op.onInts g' (v.reduce f) (w.reduce f))) := by
  match v, w with
  | .lit (.int a), .lit (.int b) =>
    have hvalue : (ValueOver.lit (g a b)).reduce f = .lit (g' (f a) (f b)) :=
      congrArg Value.lit (hg a b)
    show OutcomeOver.Reduces f P (some (.ok (.lit (g a b)))) (some (.ok (.lit (g' (f a) (f b)))))
    rw [← hvalue]
    exact .value trivial
  | .lit (.int _), .lit (.bool _) => exact .error _
  | .lit (.int _), .closure _ _ _ => exact .error _
  | .lit (.bool _), _ => exact .error _
  | .closure _ _ _, _ => exact .error _

theorem onBools_reduces (op : Op) (g : Bool → Bool → Bool) (v w : ValueOver ι) :
    OutcomeOver.Reduces f P (some (onBools op g v w))
      (some (op.onBools g (v.reduce f) (w.reduce f))) := by
  match v, w with
  | .lit (.bool _), .lit (.bool _) => exact .value trivial
  | .lit (.bool _), .lit (.int _) => exact .error _
  | .lit (.bool _), .closure _ _ _ => exact .error _
  | .lit (.int _), _ => exact .error _
  | .closure _ _ _, _ => exact .error _

/-- Comparison is related if equal integers are those with equal words. -/
theorem compare_reduces {equal : ι → ι → Bool} (hequal : ∀ a b, equal a b = decide (f a = f b))
    (v w : ValueOver ι) :
    OutcomeOver.Reduces f P (some (compare equal v w))
      (some (Op.compare (v.reduce f) (w.reduce f))) := by
  match v, w with
  | .lit (.int a), .lit (.int b) =>
    show OutcomeOver.Reduces f P _ (some (.ok (.lit (.bool (decide (f a = f b))))))
    rw [← hequal a b]
    exact .value trivial
  | .lit (.bool _), .lit (.bool _) => exact .value trivial
  | .lit (.int _), .lit (.bool _) => exact .error _
  | .lit (.bool _), .lit (.int _) => exact .error _
  | .lit (.int _), .closure _ _ _ => exact .error _
  | .lit (.bool _), .closure _ _ _ => exact .error _
  | .closure _ _ _, .lit (.int _) => exact .error _
  | .closure _ _ _, .lit (.bool _) => exact .error _
  | .closure _ _ _, .closure _ _ _ => exact .error _

/-- An operator that is respected gives over words what it gives before. -/
theorem apply_reduces {op : Op} (h : A.Respects f op) (v w : ValueOver ι) :
    OutcomeOver.Reduces f P (some (A.apply op v w))
      (some (op.apply (v.reduce f) (w.reduce f))) := by
  cases op with
  | add =>
    refine onInts_reduces .add (fun a b => ?_) v w
    exact congrArg Literal.int (h a b)
  | mul =>
    refine onInts_reduces .mul (fun a b => ?_) v w
    exact congrArg Literal.int (h a b)
  | and => exact onBools_reduces .and _ v w
  | or => exact onBools_reduces .or _ v w
  | less =>
    refine onInts_reduces .less (fun a b => ?_) v w
    exact congrArg Literal.bool (h a b)
  | greater =>
    refine onInts_reduces .greater (fun a b => ?_) v w
    exact congrArg Literal.bool (h b a)
  | equal => exact compare_reduces h v w

/-! ## All levels -/

/--
**Evaluation over words is evaluation over other integers, taken to words**, if the operators of the
expression and of the closures in the scope are respected.
-/
theorem eval_reduces (hliteral : ∀ n, f (A.literal n) = n) {scope : ScopeOver ι} {e : Expr}
    (hscope : scope.Uses (A.Respects f)) (he : ∀ op ∈ e.ops, A.Respects f op) (depth : Nat) :
    (A.eval depth scope e).Reduces f (A.Respects f) (e.eval depth (scope.reduce f)) := by
  -- by the depth and not by the expression: a call goes on with the body of a closure
  induction depth generalizing scope e with
  | zero => exact .none
  | succ depth ih =>
    cases e with
    | var name =>
      rw [eval, level, Expr.eval, ScopeOver.resolve_reduce]
      cases hx : scope.resolve name with
      | none => exact .error _
      | some value => exact .value (hscope.resolve hx)
    | lit literal =>
      have hvalue : (ValueOver.lit (A.ofLiteral literal)).reduce f = .lit literal := by
        cases literal with
        | int n => exact congrArg (fun n => Value.lit (.int n)) (hliteral n)
        | bool b => rfl
      rw [eval, level, Expr.eval, ← hvalue]
      exact .value trivial
    | prim op lhs rhs =>
      simp only [Expr.ops, List.forall_mem_cons, List.forall_mem_append] at he
      obtain ⟨hop, hl, hr⟩ := he
      exact (ih hscope hl).andThen fun left _ =>
        (ih hscope hr).andThen fun right _ => apply_reduces hop left right
    | ite condition consequent alternative =>
      simp only [Expr.ops, List.forall_mem_append] at he
      obtain ⟨⟨hc, hy⟩, hn⟩ := he
      exact (ih hscope hc).andThen fun test _ => .pick test (ih hscope hy) (ih hscope hn)
    | app function argument =>
      simp only [Expr.ops, List.forall_mem_append] at he
      refine (ih hscope he.1).andThen fun callee hcallee =>
        (ih hscope he.2).andThen fun value hvalue => ?_
      cases callee with
      | lit literal => exact .error _
      | closure param body outer => exact ih ⟨hcallee.2, hvalue⟩ hcallee.1
    | lam param type body => exact .value ⟨he, hscope⟩

end Arithmetic

end

/-! ## Words and unbounded integers -/

mutual

theorem ValueOver.uses_of_forall {P : Op → Prop} (h : ∀ op, P op) :
    (value : ValueOver ι) → value.Uses P
  | .lit _ => trivial
  | .closure _ _ scope => ⟨fun op _ => h op, ScopeOver.uses_of_forall h scope⟩

theorem ScopeOver.uses_of_forall {P : Op → Prop} (h : ∀ op, P op) :
    (scope : ScopeOver ι) → scope.Uses P
  | .empty => trivial
  | .bind outer _ value => ⟨ScopeOver.uses_of_forall h outer, ValueOver.uses_of_forall h value⟩

end

namespace Arithmetic

/-- Words are taken to themselves, and every operator respects that. -/
theorem respects_words (op : Op) : words.Respects id op := by
  cases op with
  | and | or => trivial
  | add | mul | less | greater | equal => exact fun _ _ => rfl

/-- **Evaluation over words is evaluation.** -/
theorem eval_words (depth : Nat) (scope : ScopeOver Int64) (e : Expr) :
    e.eval depth (scope.reduce id) = (words.eval depth scope e).reduce id := by
  have hscope := ScopeOver.uses_of_forall respects_words scope
  exact (eval_reduces (fun _ => rfl) hscope (fun op _ => respects_words op) depth).eq_reduce

end Arithmetic

/-- The operators that tell integers apart. -/
def Op.comparisons : List Op := [less, greater, equal]

/-- No comparison occurs in the expression. -/
def Expr.ComparesNothing (e : Expr) : Prop := ∀ op ∈ e.ops, op ∉ Op.comparisons

instance (e : Expr) : Decidable e.ComparesNothing :=
  inferInstanceAs (Decidable (∀ op ∈ e.ops, op ∉ Op.comparisons))

/-- Sums and products may be wrapped around before or after. -/
theorem Arithmetic.respects_wrap {op : Op} (h : op ∉ Op.comparisons) :
    unbounded.Respects wrap op := by
  cases op with
  | add => exact Int64.ofInt_add
  | mul => exact Int64.ofInt_mul
  | and | or => trivial
  | less | greater | equal => exact absurd (by decide) h

/-- Without comparisons, evaluation with words is evaluation without bounds, wrapped at the end. -/
theorem Arithmetic.eval_wraps {e : Expr} (h : e.ComparesNothing) (depth : Nat) :
    e.eval depth .empty = (unbounded.eval depth .empty e).reduce wrap := by
  have hliteral : ∀ n, wrap (unbounded.literal n) = n := Int64.ofInt_toInt
  have hscope : (ScopeOver.empty : ScopeOver Int).Uses (unbounded.Respects wrap) := trivial
  have hops : ∀ op ∈ e.ops, unbounded.Respects wrap op := fun op hop => respects_wrap (h op hop)
  exact (eval_reduces hliteral hscope hops depth).eq_reduce

theorem OutcomeOver.eq_ok_of_reduce {f : ι → Int64} {o : OutcomeOver ι} {value : Value}
    (h : o.reduce f = some (.ok value)) : ∃ v, o = some (.ok v) ∧ v.reduce f = value := by
  match o with
  | none => cases h
  | some (.error _) => cases h
  | some (.ok v) => exact ⟨v, rfl, Except.ok.inj (Option.some.inj h)⟩

/--
**Overflow is one final wrap.** Evaluation over words is evaluation. A closed expression without
comparisons that the checker accepts has a value over unbounded integers, of the kind of its type,
and is evaluated to this value with every integer in it wrapped around to 64 bits: to the same
boolean, to the integer wrapped around, or to the closure whose scope has its integers wrapped.
-/
theorem overflow_is_one_final_wrap :
    (∀ (depth : Nat) (scope : ScopeOver Int64) (e : Expr),
      e.eval depth (scope.reduce id) = (Arithmetic.words.eval depth scope e).reduce id) ∧
    ∀ (e : Expr) (type : Ty), e.check .empty = .ok type → e.ComparesNothing →
      ∃ value : ValueOver Int, Arithmetic.unbounded.Evaluates .empty e value ∧
        value.kind = type.kind ∧ e.Evaluates .empty (value.reduce wrap) := by
  refine ⟨Arithmetic.eval_words, fun e type hcheck hfree => ?_⟩
  obtain ⟨value, hholds, hvalue⟩ :=
    Expr.exists_evaluates_of_check (Scope.models_empty .empty) hcheck
  obtain ⟨depth, hdepth⟩ := hvalue.1
  rw [Arithmetic.eval_wraps hfree] at hdepth
  obtain ⟨wide, hwide, rfl⟩ := OutcomeOver.eq_ok_of_reduce hdepth
  exact ⟨wide, Arithmetic.evaluates_of_eval hwide, wide.kind_reduce.symm.trans hholds.kind_eq,
    hvalue⟩

/-- A function that squares and adds one, called twice by another one on the greatest integer. -/
def squaring : Expr :=
  .app (.lam "f" (.arrow .int .int)
      (.app (.var "f") (.app (.var "f") (.lit (.int 9223372036854775807)))))
    (.lam "n" .int (.prim .add (.prim .mul (.var "n") (.var "n")) (.lit (.int 1))))

/-- The squares leave the range of words twice, and one wrap at the end gives the same. -/
theorem overflow_is_one_final_wrap_squaring :
    squaring.check .empty = .ok .int ∧ squaring.ComparesNothing ∧
      squaring.eval 6 .empty = some (.ok (.lit (.int 5))) ∧
      ∃ value : ValueOver Int, Arithmetic.unbounded.Evaluates .empty squaring value ∧
        value.kind = Ty.int.kind ∧ squaring.Evaluates .empty (value.reduce wrap) := by
  have hfree : squaring.ComparesNothing := by decide
  exact ⟨rfl, hfree, rfl, overflow_is_one_final_wrap.2 squaring .int rfl hfree⟩

/-- **A comparison tells overflow**: it may have one value here and another one without bounds. -/
theorem exists_comparison_tells_overflow :
    ∃ e : Expr, e.check .empty = .ok .bool ∧ e.Evaluates .empty (.lit (.bool true)) ∧
      Arithmetic.unbounded.Evaluates .empty e (.lit (.bool false)) := by
  let e : Expr := .prim .less (.prim .add (.lit (.int 9223372036854775807)) (.lit (.int 1)))
    (.lit (.int 0))
  exact ⟨e, rfl, Expr.evaluates_of_eval (rfl : e.eval 3 .empty = _),
    Arithmetic.evaluates_of_eval (rfl : Arithmetic.unbounded.eval 3 .empty e = _)⟩

end TypedLambda
