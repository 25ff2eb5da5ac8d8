import LetPoly.NameSet
import LetPoly.Parens

/-! # Types

Monomorphic types: type variables, the two base types, and functions.  The
variables of a type are given twice, as a decidable relation (`v ∈ t`) for
reasoning and as a sorted set (`Ty.freeVars`) for printing and counting;
`Ty.mem_freeVars` says that they agree.
-/

namespace LetPoly

/-- Monomorphic types. -/
inductive Ty where
  | var (name : Name)
  | int
  | bool
  | fn (dom cod : Ty)
deriving DecidableEq

namespace Ty

instance : Inhabited Ty := ⟨.int⟩

/-- A variable occurs in a type. -/
def Occurs (v : Name) : Ty → Prop
  | .var w => v = w
  | .int => False
  | .bool => False
  | .fn dom cod => Occurs v dom ∨ Occurs v cod

/-- Occurrence is decided by looking at every variable of the type. -/
def decidableOccurs (v : Name) : (t : Ty) → Decidable (Occurs v t)
  | .var w => inferInstanceAs (Decidable (v = w))
  | .int => inferInstanceAs (Decidable False)
  | .bool => inferInstanceAs (Decidable False)
  | .fn dom cod =>
      let _ := decidableOccurs v dom
      let _ := decidableOccurs v cod
      inferInstanceAs (Decidable (Occurs v dom ∨ Occurs v cod))

instance : Membership Name Ty := ⟨fun t v => Occurs v t⟩

instance (v : Name) (t : Ty) : Decidable (v ∈ t) := decidableOccurs v t

@[simp]
theorem mem_var {v w : Name} : v ∈ Ty.var w ↔ v = w := Iff.rfl

@[simp]
theorem not_mem_int (v : Name) : v ∉ Ty.int := id

@[simp]
theorem not_mem_bool (v : Name) : v ∉ Ty.bool := id

@[simp]
theorem mem_fn {v : Name} {dom cod : Ty} : v ∈ Ty.fn dom cod ↔ v ∈ dom ∨ v ∈ cod := Iff.rfl

/-- The variables of a type, in order. -/
def freeVars : Ty → NameSet
  | .var v => {v}
  | .int => ∅
  | .bool => ∅
  | .fn dom cod => dom.freeVars ∪ cod.freeVars

@[simp]
theorem mem_freeVars {v : Name} : ∀ {t : Ty}, v ∈ t.freeVars ↔ v ∈ t
  | .var w => by simp [freeVars]
  | .int => by simp [freeVars]
  | .bool => by simp [freeVars]
  | .fn dom cod => by simp [freeVars, @mem_freeVars v dom, @mem_freeVars v cod]

/-- The number of constructors of a type. -/
def size : Ty → Nat
  | .var _ => 1
  | .int => 1
  | .bool => 1
  | .fn dom cod => 1 + dom.size + cod.size

/-- Function types, which need parentheses to the left of an arrow. -/
def isFn : Ty → Bool
  | .fn _ _ => true
  | _ => false

/-- The text of a type.  Arrows group to the right. -/
def render : Ty → String
  | .var v => v
  | .int => "Int"
  | .bool => "Bool"
  | .fn dom cod => parensIf dom.isFn dom.render ++ " -> " ++ cod.render

end Ty

end LetPoly
