import SsaBackend.Text.Number

/-!
# Values

The values that instructions read and write: typed constants, parameters and temporaries. Parameters
and temporaries carry an id, and the id alone is their identity; a constant has none, so it is never
live and never needs a place.
-/

namespace SsaBackend

abbrev ValueId := Nat

def valueName (v : ValueId) : String := "v" ++ toString v

inductive Ty
  | int
  | bool
  | ptr
  | float
  deriving DecidableEq

def Ty.name : Ty → String
  | .int => "int"
  | .bool => "bool"
  | .ptr => "ptr"
  | .float => "float"

inductive Value
  /-- A literal. It is a 64-bit integer whatever its type. -/
  | constant (literal : Int64) (ty : Ty)
  | parameter (id : ValueId) (index : Nat) (ty : Ty)
  | temporary (id : ValueId) (ty : Ty)
  deriving DecidableEq

namespace Value

def id? : Value → Option ValueId
  | constant _ _ => none
  | parameter id _ _ => some id
  | temporary id _ => some id

def ty : Value → Ty
  | constant _ ty => ty
  | parameter _ _ ty => ty
  | temporary _ ty => ty

def isConstant : Value → Bool
  | constant _ _ => true
  | _ => false

def render : Value → String
  | constant literal _ => Text.renderInt64 literal
  | parameter _ index _ => "%arg" ++ toString index
  | temporary id _ => "%" ++ valueName id

@[simp] theorem id?_eq_none_iff (v : Value) : v.id? = none ↔ v.isConstant = true := by
  cases v <;> simp [id?, isConstant]

end Value

end SsaBackend
