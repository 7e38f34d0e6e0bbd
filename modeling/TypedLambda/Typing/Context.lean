import TypedLambda.Ty

/-!
# Typing contexts

A context gives types to names. A name may be bound more than once; its innermost binding counts.
-/

namespace TypedLambda

/-- Names with their types, innermost binding first. -/
structure Context where
  bindings : List (String × Ty)
deriving DecidableEq

namespace Context

/-- The context without bindings. -/
def empty : Context := ⟨[]⟩

/-- The context with one more binding, inside all others. -/
def extend (Γ : Context) (name : String) (type : Ty) : Context := ⟨(name, type) :: Γ.bindings⟩

/-- The context of a list of bindings, of which a later one hides an earlier one. -/
def ofList (bindings : List (String × Ty)) : Context :=
  bindings.foldl (fun Γ binding => Γ.extend binding.1 binding.2) empty

/-- The type of a name. -/
def lookup (Γ : Context) (name : String) : Option Ty := Γ.bindings.lookup name

/-- Whether the context has no bindings. -/
def isEmpty (Γ : Context) : Bool := Γ.bindings.isEmpty

@[simp] theorem lookup_empty (name : String) : empty.lookup name = none := rfl

/-- The innermost binding counts. -/
theorem lookup_extend (Γ : Context) (x : String) (type : Ty) (y : String) :
    (Γ.extend x type).lookup y = if y = x then some type else Γ.lookup y := by
  by_cases h : y = x
  · simp [extend, lookup, h]
  · have hb : (y == x) = false := by simpa using h
    simp [extend, lookup, List.lookup_cons, hb, h]

end Context

end TypedLambda
