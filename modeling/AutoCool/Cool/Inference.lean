import AutoCool.Cool.Check

/-!
# Inferring types

Inference walks over a checked program in the scopes that the checker made. What is expected of an
expression is an upper bound for the variable that it names, and what is assigned to a variable is a
lower bound for it. At the end of a `let`, of a method and of a class the types of the variables are
inferred from their bounds. The walk is repeated until it infers nothing more.
-/

namespace AutoCool.Cool

namespace Inferring

open Analyzing

def modifyVariable (v : VarId) (f : Variable → Variable) : Analyzing Unit :=
  modify fun a => { a with scopes := a.scopes.modify v f }

def inferVariable (v : VarId) : Analyzing Bool := do
  let x ← variableOf v
  let (known, y) ← ask (·.infer x)
  modifyVariable v fun _ => y
  if known then modify fun a => { a with changed := true }
  return known

def childAt (scope : ScopeId) (i : Nat) : Analyzing ScopeId := do
  match ((← get).scopes.get scope).children[i]? with
  | some s => return s
  | none => throw .outOfRange

def childrenOf (scope : ScopeId) :
    Analyzing (List ScopeId) := do return ((← get).scopes.get scope).children

def localsOf (scope : ScopeId) : Analyzing (List VarId) := do
  return ((← get).scopes.get scope).locals.map (·.2)

def knownType (v : Variable) : Option TypeId := if v.inferred then some v.type else none

def typeOrWrong (name : Token) : Analyzing TypeId := do
  match ← attempt (·.find name.text) with
  | .ok t => return t
  | .error _ => return TypeId.error

def dispatchType : Option Token → Analyzing (Option TypeId)
  | none => return none
  | some name => do
    let t ← typeOrWrong name
    match TypeId.kind t with
    | .self | .auto => return some TypeId.error
    | _ => return some t

def callee (name : Token) (target : TypeId) : Analyzing (TypeId × Option Method) := do
  match ← attempt (·.findMethod target name.text) with
  | .ok (_, m) => return (ownType target m.returnType, some m)
  | .error _ => return (TypeId.error, none)

/-- What is expected of the arguments of a call: the types of the parameters that are known. -/
def expectations (args : List Expr) : Option Method → List (Option TypeId)
  | some m =>
    if args.length == m.paramTypes.length then m.params.map knownType else args.map fun _ => none
  | none => args.map fun _ => none

def foundBinding (name : Token) (v : VarId) : Analyzing Unit := do
  let x ← variableOf v
  found (.binding (position name) x.name (← nameOf x.type))

def inferLocals : List VarId → List Binding → Analyzing Unit
  | [], _ => pure ()
  | v :: vs, bindings => do
    if ← inferVariable v then
      match bindings with
      | .mk name _ _ :: _ => foundBinding name v
      | [] => throw .outOfRange
    inferLocals vs bindings.tail

def inferName (scope : ScopeId) (expected : Option TypeId) (name : Token) : Analyzing TypeId := do
  match ← resolve scope name.text with
  | none => return TypeId.error
  | some v =>
    if expected.isSome then modifyVariable v (·.addUpper expected)
    return (knownType (← variableOf v)).getD TypeId.auto

mutual

def inferExpr (cls : TypeId) (scope : ScopeId) (expected : Option TypeId) (e : Expr) :
    Analyzing (Option TypeId) := do
  let i ← enter scope
  match e with
  | .ifThenElse condition ifBody elseBody =>
    let _ ← inferExpr cls (← childAt scope 0) (some Builtin.bool) condition
    let ifType ← inferExpr cls (← childAt scope 1) none ifBody
    let elseType ← inferExpr cls (← childAt scope 2) none elseBody
    settle i (← join ifType elseType)
  | .whileLoop condition body =>
    let _ ← inferExpr cls (← childAt scope 0) (some Builtin.bool) condition
    let _ ← inferExpr cls (← childAt scope 1) none body
    settle i (some Builtin.object)
  | .block expressions =>
    let children ← childrenOf scope
    let type ← inferBlock cls expected children.getLast? children.dropLast expressions
    settle i type
  | .letIn bindings body =>
    let children ← childrenOf scope
    inferBindings cls children.dropLast (← localsOf scope) bindings
    match children.getLast? with
    | none => throw .outOfRange
    | some last =>
      let type ← inferExpr cls last expected body
      inferLocals (← localsOf scope) bindings
      settle i type
  | .caseOf subject branches =>
    let _ ← inferExpr cls (← childAt scope 0) none subject
    inferBranches cls i (← settle i none) ((← childrenOf scope).drop 1) branches
  | .assign name value =>
    let v ← resolve scope name.text
    let wanted ← match v with
      | some v => do pure ((knownType (← variableOf v)).or expected)
      | none => pure expected
    let type ← inferExpr cls (← childAt scope 0) wanted value
    modifyVariable (← present v) (·.addLower type)
    settle i type
  | .unary op operand =>
    match op with
    | .not =>
      let _ ← inferExpr cls (← childAt scope 0) (some Builtin.bool) operand
      settle i (some Builtin.bool)
    | .isVoid =>
      let _ ← inferExpr cls (← childAt scope 0) none operand
      settle i (some Builtin.bool)
    | .complement =>
      let _ ← inferExpr cls (← childAt scope 0) (some Builtin.int) operand
      settle i (some Builtin.int)
  | .binary op left right =>
    match op with
    | .equal =>
      let rightSoFar ← typeSoFar (i + 1 + left.size)
      let leftType ← inferExpr cls (← childAt scope 0) rightSoFar left
      let _ ← inferExpr cls (← childAt scope 1) leftType right
    | _ =>
      let _ ← inferExpr cls (← childAt scope 0) (some Builtin.int) left
      let _ ← inferExpr cls (← childAt scope 1) (some Builtin.int) right
    settle i (some (Checking.typeOfOperation op))
  | .call object name args type =>
    let named ← dispatchType type
    let objectType ← inferExpr cls (← childAt scope 0) named object
    let (type, method) ← callee name (← present (named.or objectType))
    inferArgs cls ((← childrenOf scope).drop 1) (expectations args method) args
    settle i (some type)
  | .selfCall name args =>
    let (type, method) ← callee name cls
    inferArgs cls (← childrenOf scope) (expectations args method) args
    settle i (some type)
  | .new type => settle i (some (← typeOrWrong type))
  | .atom kind token =>
    match kind with
    | .integer => settle i (some Builtin.int)
    | .string => settle i (some Builtin.string)
    | .bool => settle i (some Builtin.bool)
    | .name => settle i (some (← inferName scope expected token))

def inferBlock (cls : TypeId) (expected : Option TypeId) (last : Option ScopeId) :
    (children : List ScopeId) → List Expr → Analyzing (Option TypeId)
  | _, [e] =>
    match last with
    | some child => inferExpr cls child expected e
    | none => throw .outOfRange
  | child :: children, e :: es => do
    let _ ← inferExpr cls child none e
    inferBlock cls expected last children es
  | [], _ :: es => inferBlock cls expected last [] es
  | _, [] => throw .outOfRange

def inferBindings (cls : TypeId) : (children : List ScopeId) → (locals : List VarId) →
    List Binding → Analyzing Unit
  | child :: children, v :: vs, .mk name _ value :: bindings => do
    match value with
    | none => pure ()
    | some e =>
      let type ← inferExpr cls child (knownType (← variableOf v)) e
      modifyVariable v (·.addUpper type)
      if ← inferVariable v then foundBinding name v
    inferBindings cls children vs bindings
  | _, _, _ => pure ()

def inferBranches (cls : TypeId) (i : Nat) (total : Option TypeId) :
    (children : List ScopeId) → List Branch → Analyzing (Option TypeId)
  | child :: children, .mk _ _ body :: branches => do
    let type ← inferExpr cls child none body
    let total ← match total with
      | some _ => settle i (← join total type)
      | none => settle i type
    inferBranches cls i total children branches
  | _, _ => return total

def inferArgs (cls : TypeId) : (children : List ScopeId) → (expected : List (Option TypeId)) →
    List Expr → Analyzing Unit
  | child :: children, x :: xs, e :: es => do
    let _ ← inferExpr cls child x e
    inferArgs cls children xs es
  | _, _, _ => pure ()

end

def foundAttribute (cls owner : TypeId) (name : String) (v : VarId) : Analyzing Unit := do
  let type := (← variableOf v).type
  modify fun a => { a with types := a.types.modifyAttribute owner name fun x => { x with type } }
  found (.attribute (← nameOf cls) name (← nameOf type))

def inferParams (cls owner : TypeId) (method : String) : (i : Nat) → List VarId → Analyzing Unit
  | _, [] => pure ()
  | i, v :: vs => do
    if ← inferVariable v then
      let x ← variableOf v
      modify fun a => { a with
        types := a.types.modifyMethod owner method fun m =>
          { m with paramTypes := m.paramTypes.set i x.type } }
      found (.param method (← nameOf cls) x.name (← nameOf x.type))
    inferParams cls owner method (i + 1) vs

def inferResult (cls owner : TypeId) (m : Method) (bodyType : Option TypeId) : Analyzing Unit := do
  let bounded := m.result.addLower bodyType
  modify fun a => { a with types := a.types.modifyMethod owner m.name fun m =>
    { m with result := bounded } }
  let (known, result) ← ask (·.infer bounded)
  modify fun a => { a with types := a.types.modifyMethod owner m.name fun m => { m with result } }
  if known then
    modify fun a => { a with
      changed := true
      types := a.types.modifyMethod owner m.name fun m => { m with returnType := result.type } }
    found (.result m.name (← nameOf cls) (← nameOf result.type))

def inferFeature (cls : TypeId) (scope : ScopeId) : Feature → Analyzing Unit
  | .attribute _ _ none => pure ()
  | .attribute name _ (some value) => do
    let (owner, a) ← ask (·.findAttribute cls name.text)
    let type ← inferExpr cls (← childAt scope 0) (some a.type) value
    let v ← present (← resolve scope name.text)
    modifyVariable v (·.addUpper type)
    if ← inferVariable v then foundAttribute cls owner a.name v
  | .method name _ _ body => do
    let (owner, m) ← ask (·.findMethod cls name.text)
    let type ← inferExpr cls (← childAt scope 0) (some (ownType cls m.returnType)) body
    inferParams cls owner m.name 0 ((← localsOf scope).drop 1)
    inferResult cls owner m type

def inferFeatures (cls : TypeId) : List ScopeId → List Feature → Analyzing Unit
  | s :: ss, f :: fs => do
    inferFeature cls s f
    inferFeatures cls ss fs
  | _, _ => pure ()

def inferAttributes (cls : TypeId) : List Attribute → List VarId → Analyzing Unit
  | a :: as, v :: vs => do
    if ← inferVariable v then foundAttribute cls cls a.name v
    inferAttributes cls as vs
  | _, _ => pure ()

def inferClass (scope : ScopeId) (c : ClassDecl) : Analyzing Unit := do
  let cls ← ask (·.find c.name.text)
  inferFeatures cls (← childrenOf scope) c.features
  inferAttributes cls ((← get).types.get cls).attributes (← localsOf scope)

def inferClasses : List ScopeId → List ClassDecl → Analyzing Unit
  | s :: ss, c :: cs => do
    inferClass s c
    inferClasses ss cs
  | _, _ => pure ()

end Inferring

def infer (p : Program) : Analyzing Bool := do
  modify fun a => { a with cursor := 0, changed := false }
  Inferring.inferClasses ((← get).scopes.get ScopeTree.root).children p.classes
  return (← get).changed

namespace Analysis

/-- A bound on the number of walks: each one but the last infers the type of a variable or of the
result of a method, and none is inferred twice. -/
def walks (a : Analysis) : Nat :=
  a.scopes.vars.size + (a.types.entries.toList.map (·.methods.length)).foldr (· + ·) 0 + 1

def inferAll (p : Program) : (fuel : Nat) → Analyzing Unit
  | 0 => pure ()
  | fuel + 1 => do if ← infer p then inferAll p fuel

end Analysis

end AutoCool.Cool
