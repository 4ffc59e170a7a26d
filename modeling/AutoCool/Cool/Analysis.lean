import AutoCool.Cool.Declarations
import AutoCool.Cool.Diagnostic
import AutoCool.Types.Display
import AutoCool.Types.Scope

/-!
# The state of an analysis

An analysis walks over a program, class by class and in each body every expression before its parts.
It notes the scope and the type of every expression in the order in which it meets them, and it may
be cut short; what it found until then is kept.
-/

namespace AutoCool.Cool

/-- What is noted about an expression: its scope, and its type as soon as it is settled. The type
that is settled may still be none. -/
structure Note where
  scope : ScopeId
  type : Option (Option TypeId) := none
deriving DecidableEq, Repr

structure Analysis where
  types : Types
  scopes : ScopeTree := {}
  notes : Array Note := #[]
  /-- How many expressions this walk has met. -/
  cursor : Nat := 0
  diagnostics : Array Diagnostic := #[]
  findings : Array Finding := #[]
  /-- Whether this walk has inferred a type. -/
  changed : Bool := false

abbrev Analyzing := ExceptT Failure (StateM Analysis)

/-- Runs a part of an analysis: what cut it short, if anything did, and what is known after it. -/
def Analyzing.outcome {α : Type} (m : Analyzing α) (a : Analysis) : Option Failure × Analysis :=
  match m.run.run a with
  | (.ok _, a) => (none, a)
  | (.error f, a) => (some f, a)

namespace Analyzing

def present {α : Type} : Option α → Analyzing α
  | some a => pure a
  | none => throw .absent

def enter (scope : ScopeId) : Analyzing Nat := do
  let a ← get
  let notes :=
    if a.cursor < a.notes.size then a.notes.modify a.cursor fun n => { n with scope }
    else a.notes.push { scope }
  set { a with notes, cursor := a.cursor + 1 }
  return a.cursor

def settle (i : Nat) (type : Option TypeId) : Analyzing (Option TypeId) := do
  modify fun a => { a with notes := a.notes.modify i fun n => { n with type := some type } }
  return type

def typeSoFar (i : Nat) : Analyzing (Option TypeId) := do
  return ((← get).notes[i]?).bind fun n => n.type.join

def report (place : Position) (complaint : Complaint) : Analyzing Unit :=
  modify fun a => { a with diagnostics := a.diagnostics.push { place, complaint } }

def found (f : Finding) : Analyzing Unit :=
  modify fun a => { a with findings := a.findings.push f }

def ask {α : Type} (f : Types → Except Failure α) : Analyzing α := do
  MonadExcept.ofExcept (f (← get).types)

/-- Asks about the types; when it is a declaration that is wrong, the answer is the error. -/
def attempt {α : Type} (f : Types → Except Failure α) : Analyzing (Except DeclarationError α) := do
  match f (← get).types with
  | .ok a => return .ok a
  | .error (.declaration e) => return .error e
  | .error f => throw f

def nameOf (t : TypeId) : Analyzing String := do return (← get).types.name t

def conforms (t u : TypeId) : Analyzing Bool := ask (·.conforms t u)

def join (t u : Option TypeId) : Analyzing (Option TypeId) := do
  let t ← present t
  ask (·.join t u)

def newChild (scope : ScopeId) : Analyzing ScopeId := do
  let a ← get
  let (child, scopes) := a.scopes.createChild scope
  set { a with scopes }
  return child

def define (scope : ScopeId) (name : String) (type : TypeId) : Analyzing Unit :=
  modify fun a => { a with scopes := (a.scopes.define scope name type).2 }

def resolve (scope : ScopeId) (name : String) : Analyzing (Option VarId) := do
  return (← get).scopes.find scope name

def variableOf (v : VarId) : Analyzing Variable := do return (← get).scopes.getVar v

end Analyzing

def Analysis.annotated (a : Analysis) (p : Program) : List (Expr × Option (Option TypeId)) :=
  p.nodes.zipIdx.map fun (e, i) => (e, (a.notes[i]?).bind (·.type))

def ownType (cls t : TypeId) : TypeId := if TypeId.kind t == .self then cls else t

end AutoCool.Cool
