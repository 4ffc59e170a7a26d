import AutoCool.Types.Variable

/-!
# Tables of types

A table holds the types that were made, by number, and the names under which some of them are known.
A type has a parent, attributes and methods, and what it does not have itself it has from its
parent.
-/

namespace AutoCool

structure Attribute where
  name : String
  type : TypeId
deriving DecidableEq, Repr

/-- A method of a type. Beside the types of its parameters and its result stand the variables that
they are inferred through. -/
structure Method where
  name : String
  paramNames : List String
  paramTypes : List TypeId
  params : List Variable
  returnType : TypeId
  result : Variable
deriving DecidableEq, Repr

namespace Method

def ofSignature (name : String) (paramNames : List String) (paramTypes : List TypeId)
    (returnType : TypeId) : Method where
  name := name
  paramNames := paramNames
  paramTypes := paramTypes
  params := (paramNames.zip paramTypes).map fun (p, t) =>
    Variable.ofType ("_" ++ name ++ "_" ++ p) t
  returnType := returnType
  result := Variable.ofType ("_" ++ name) returnType

end Method

structure TypeEntry where
  name : String
  isSealed : Bool := false
  parent : Option TypeId := none
  attributes : List Attribute := []
  methods : List Method := []
deriving DecidableEq, Repr, Inhabited

inductive DeclarationError
  | parentExists (type : String)
  | parentSealed (parent : String)
  | noAttribute (name type : String)
  | attributeExists (name type : String)
  | noMethod (name type : String)
  | methodExists (name type : String)
  | typeExists (type : String)
  | noType (type : String)
deriving DecidableEq, Repr

def DeclarationError.message : DeclarationError → String
  | .parentExists t => "Parent type is already set for " ++ t ++ "."
  | .parentSealed p => "Parent type \"" ++ p ++ "\" is sealed. Can't inherit from it."
  | .noAttribute n t => "Attribute \"" ++ n ++ "\" is not defined in " ++ t ++ "."
  | .attributeExists n t => "Attribute \"" ++ n ++ "\" is already defined in " ++ t ++ "."
  | .noMethod n t => "Method \"" ++ n ++ "\" is not defined in " ++ t ++ "."
  | .methodExists n t => "Method \"" ++ n ++ "\" already defined in " ++ t
  | .typeExists t => "Type with the same name (" ++ t ++ ") already in context."
  | .noType t => "Type \"" ++ t ++ "\" is not defined."

inductive Failure
  | declaration (e : DeclarationError)
  /-- Something was asked of a type, a method or a variable that is not there. -/
  | absent
  /-- A chain of ancestors, or a list of bindings, is too short. -/
  | outOfRange
  /-- A chain of ancestors has no end. -/
  | cyclic
deriving DecidableEq, Repr

structure Types where
  entries : Array TypeEntry :=
    #[{ name := "SELF_TYPE", isSealed := true }, { name := "AUTO_TYPE", isSealed := true },
      { name := "<error>", isSealed := true }]
  context : List (String × TypeId) := []

namespace Types

def get (ts : Types) (t : TypeId) : TypeEntry := ts.entries.getD t default

def name (ts : Types) (t : TypeId) : String := (ts.get t).name

def parent? (ts : Types) (t : TypeId) : Option TypeId := (ts.get t).parent

def modify (ts : Types) (t : TypeId) (f : TypeEntry → TypeEntry) : Types :=
  { ts with entries := ts.entries.modify t f }

def push (ts : Types) (e : TypeEntry) : TypeId × Types :=
  (ts.entries.size, { ts with entries := ts.entries.push e })

/-- A bound on the number of types in a chain of ancestors without repetition. -/
def height (ts : Types) : Nat := ts.entries.size + 1

def find (ts : Types) (name : String) : Except Failure TypeId :=
  match ts.context.lookup name with
  | some t => .ok t
  | none => .error (.declaration (.noType name))

def add (ts : Types) (t : TypeId) : Except Failure Types :=
  let name := ts.name t
  if ts.context.any (·.1 == name) then .error (.declaration (.typeExists name))
  else .ok { ts with context := ts.context ++ [(name, t)] }

def create (ts : Types) (name : String) : Except Failure (TypeId × Types) :=
  if ts.context.any (·.1 == name) then .error (.declaration (.typeExists name))
  else
    let (t, ts) := ts.push { name }
    .ok (t, { ts with context := ts.context ++ [(name, t)] })

def setParent (ts : Types) (t parent : TypeId) : Except Failure Types :=
  if (ts.parent? t).isSome then .error (.declaration (.parentExists (ts.name t)))
  else if (ts.get parent).isSealed then .error (.declaration (.parentSealed (ts.name parent)))
  else .ok (ts.modify t fun e => { e with parent := some parent })

/-- Walks from a type up to the first one that has something, at most `fuel` types. The answer is
`none` when no type has it. -/
def climb {α : Type} (ts : Types) (has : TypeEntry → Option α) :
    (fuel : Nat) → TypeId → Except Failure (Option (TypeId × α))
  | 0, _ => .error .cyclic
  | fuel + 1, t =>
    match has (ts.get t) with
    | some a => .ok (some (t, a))
    | none =>
      match ts.parent? t with
      | none => .ok none
      | some p => ts.climb has fuel p

def findAttribute (ts : Types) (t : TypeId) (name : String) :
    Except Failure (TypeId × Attribute) := do
  match ← ts.climb (fun e => e.attributes.find? (·.name == name)) ts.height t with
  | some a => return a
  | none => throw (.declaration (.noAttribute name (ts.name t)))

def findMethod (ts : Types) (t : TypeId) (name : String) : Except Failure (TypeId × Method) := do
  match ← ts.climb (fun e => e.methods.find? (·.name == name)) ts.height t with
  | some m => return m
  | none => throw (.declaration (.noMethod name (ts.name t)))

def defineAttribute (ts : Types) (t : TypeId) (name : String) (type : TypeId) :
    Except Failure Types :=
  match ts.findAttribute t name with
  | .ok _ => .error (.declaration (.attributeExists name (ts.name t)))
  | .error (.declaration _) =>
    .ok (ts.modify t fun e => { e with attributes := e.attributes ++ [⟨name, type⟩] })
  | .error f => .error f

def defineMethod (ts : Types) (t : TypeId) (m : Method) : Except Failure Types :=
  if (ts.get t).methods.any (·.name == m.name) then
    .error (.declaration (.methodExists m.name (ts.name t)))
  else .ok (ts.modify t fun e => { e with methods := e.methods ++ [m] })

def modifyAttribute (ts : Types) (t : TypeId) (name : String) (f : Attribute → Attribute) : Types :=
  ts.modify t fun e =>
    { e with attributes := e.attributes.map fun a => if a.name == name then f a else a }

def modifyMethod (ts : Types) (t : TypeId) (name : String) (f : Method → Method) : Types :=
  ts.modify t fun e =>
    { e with methods := e.methods.map fun m => if m.name == name then f m else m }

end Types

end AutoCool
