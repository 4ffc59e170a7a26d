import AutoCool.Types.Basic

/-!
# The order of types

A plain type conforms to itself and to what is above it. The type that is to be inferred and the
type of what is wrong conform to everything, and everything conforms to them; everything conforms to
the type of the object itself, which conforms to nothing. The join of two types is their nearest
common ancestor.
-/

namespace AutoCool

namespace TypeId

/-- Whether a type counts as the same as another one. The types that are to be inferred or wrong
count as the same as any, save that the type of the object itself is only the same as itself when it
stands on the left. -/
def same (t u : TypeId) : Bool :=
  match kind t with
  | .self => kind u == .self
  | .auto | .error => true
  | .plain =>
    match kind u with
    | .self => false
    | .auto | .error => true
    | .plain => t == u

end TypeId

def Method.same (m n : Method) : Bool :=
  n.name == m.name && n.returnType.same m.returnType &&
    n.paramTypes.length == m.paramTypes.length && (n.paramTypes.zip m.paramTypes).all fun (t, u) =>
      t.same u

namespace Types

/-- Whether a plain type is another one or has it above it, among the first `fuel` types of its
chain. -/
def reaches (ts : Types) : (fuel : Nat) → (t u : TypeId) → Except Failure Bool
  | 0, _, _ => .error .cyclic
  | fuel + 1, t, u =>
    match TypeId.kind t with
    | .self => .ok false
    | .auto | .error => .ok true
    | .plain =>
      if TypeId.isBypass u || TypeId.same t u then .ok true
      else
        match ts.parent? t with
        | none => .ok false
        | some p => ts.reaches fuel p u

def conforms (ts : Types) (t u : TypeId) : Except Failure Bool := ts.reaches ts.height t u

/-- A type and what is above it, from the top down, before `below`. The chain has at most `fuel`
types. -/
def chain (ts : Types) : (fuel : Nat) → TypeId → (below : List TypeId) → Except Failure
    (List TypeId)
  | 0, _, _ => .error .cyclic
  | fuel + 1, t, below =>
    match ts.parent? t with
    | none => .ok (t :: below)
    | some p => ts.chain fuel p (t :: below)

/-- The last type of the first of two chains up to which they agree, `last` when they differ at
once. A chain that ends before they differ is too short. -/
def agree (last : Option TypeId) : List TypeId → List TypeId → Except Failure (Option TypeId)
  | t :: ts, u :: us => if TypeId.same t u then agree (some t) ts us else .ok last
  | _, _ => .error .outOfRange

/-- The join of two types: the second one if they are the same, else their nearest common ancestor.
There may be none, and nothing can be said when one of the two is above the other one. -/
def join (ts : Types) (t : TypeId) : Option TypeId → Except Failure (Option TypeId)
  | none => do
    let _ ← ts.chain ts.height t []
    throw .outOfRange
  | some u => do
    if TypeId.same t u then return some u
    agree none (← ts.chain ts.height t []) (← ts.chain ts.height u [])

/-- What a type that absorbs others makes of any other one: itself. Only the type that is to be
inferred and the type of what is wrong do. -/
def absorbing? (t : TypeId) : Option TypeId :=
  match TypeId.kind t with
  | .auto | .error => some t
  | _ => none

/-- The least of some upper bounds, starting from `least`. Bounds that do not conform to each other
make it wrong. -/
def leastUpper (ts : Types) (least : Option TypeId) :
    List (Option TypeId) → Except Failure (Option TypeId)
  | [] => .ok least
  | bound :: bounds =>
    match least, bound with
    | none, _ => ts.leastUpper bound bounds
    | some _, none => .error .absent
    | some t, some u => do
      if ← ts.conforms u t then ts.leastUpper (some u) bounds
      else if ← ts.conforms t u then ts.leastUpper (some t) bounds
      else return some TypeId.error

def joinLower (ts : Types) (total : Option TypeId) :
    List (Option TypeId) → Except Failure (Option TypeId)
  | [] => .ok total
  | bound :: bounds =>
    match total with
    | none => ts.joinLower bound bounds
    | some t => do ts.joinLower (← ts.join t bound) bounds

/-- The type that two bounds leave: the lower one if it conforms to the upper one. -/
def between (ts : Types) : (upper lower : Option TypeId) → Except Failure (Option TypeId)
  | upper, none => .ok upper
  | none, some l => .ok (some l)
  | some u, some l => do return some (if ← ts.conforms l u then l else TypeId.error)

/-- The type that the bounds of a variable give: still to be inferred when they give none or a wrong
one. -/
def inferred (ts : Types) (v : Variable) : Except Failure TypeId := do
  let upper ← ts.leastUpper none v.upper
  let lower ← ts.joinLower none v.lower
  match ← ts.between upper lower with
  | none => return TypeId.auto
  | some t => return if TypeId.kind t == .error then TypeId.auto else t

/-- Infers the type of a variable from its bounds and drops them, and says whether the type became
known. -/
def infer (ts : Types) (v : Variable) : Except Failure (Bool × Variable) :=
  if v.inferred then .ok (false, v)
  else do
    let type ← ts.inferred v
    let known := type != TypeId.auto
    return (known, { v with type, inferred := known, upper := [], lower := [] })

end Types

end AutoCool
