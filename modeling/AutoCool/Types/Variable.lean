/-!
# Types by number, and variables

A type is known by its number. Three numbers are taken by the types that are not declared: the type
of the object itself, the type that is still to be inferred, and the type of what is wrong. A
variable whose type is still to be inferred collects bounds for it.
-/

namespace AutoCool

abbrev TypeId := Nat

inductive TypeKind
  | plain
  | self
  | auto
  | error
deriving DecidableEq, Repr

namespace TypeId

def self : TypeId := 0

def auto : TypeId := 1

def error : TypeId := 2

def kind (t : TypeId) : TypeKind :=
  if t = self then .self else if t = auto then .auto else if t = error then .error else .plain

def isBypass (t : TypeId) : Bool := kind t != .plain

end TypeId

/-- A variable. The bounds are kept in the order in which they were set; a bound that is `none`
comes from something without a type. -/
structure Variable where
  name : String
  type : TypeId
  inferred : Bool
  upper : List (Option TypeId) := []
  lower : List (Option TypeId) := []
deriving DecidableEq, Repr, Inhabited

namespace Variable

def ofType (name : String) (type : TypeId) : Variable :=
  { name, type, inferred := type != TypeId.auto }

def addUpper (v : Variable) (t : Option TypeId) : Variable :=
  if v.inferred || t == some TypeId.auto then v else { v with upper := v.upper ++ [t] }

def addLower (v : Variable) (t : Option TypeId) : Variable :=
  if v.inferred then v else { v with lower := v.lower ++ [t] }

@[simp] theorem addUpper_name (v : Variable) (t : Option TypeId) :
    (v.addUpper t).name = v.name := by
  unfold addUpper; split <;> rfl

@[simp] theorem addUpper_type (v : Variable) (t : Option TypeId) :
    (v.addUpper t).type = v.type := by
  unfold addUpper; split <;> rfl

@[simp] theorem addLower_name (v : Variable) (t : Option TypeId) :
    (v.addLower t).name = v.name := by
  unfold addLower; split <;> rfl

@[simp] theorem addLower_type (v : Variable) (t : Option TypeId) :
    (v.addLower t).type = v.type := by
  unfold addLower; split <;> rfl

end Variable

end AutoCool
