/-!
# Dispatch on the class of a node

Targets are attached to classes of a hierarchy. A node is handled by the target of its own class if
there is one; otherwise every target of a class above it applies.

Classes are declared one after the other, each under one that is there already. A name can be
declared again: from then on it stands for the new class, and the classes that were put under the
old one stay there.
-/

namespace AutoCool

/-- A class, by the number of its declaration. Number 0 is the class above all others. -/
abbrev ClassId := Nat

def ClassId.root : ClassId := 0

/-- Classes in the order of their declarations, the latest first. Each entry is the parent of its
class, and the class has the number of the entries from it on. -/
structure ClassTree where
  parents : List ClassId := []
  names : List (String × ClassId) := [("object", ClassId.root)]

namespace ClassTree

def find? (t : ClassTree) (name : String) : Option ClassId := t.names.lookup name

def declare (t : ClassTree) (name : String) (parent : ClassId) : ClassTree where
  parents := parent :: t.parents
  names := (name, t.parents.length + 1) :: t.names

def aboveAmong : List ClassId → ClassId → List ClassId
  | [], _ => [ClassId.root]
  | parent :: parents, c =>
    if c == parents.length + 1 then c :: aboveAmong parents parent else aboveAmong parents c

def above (t : ClassTree) (c : ClassId) : List ClassId := aboveAmong t.parents c

def isBelow (t : ClassTree) (c d : ClassId) : Bool := (t.above c).contains d

end ClassTree

/-- Targets by class, in the order in which the classes were first given one. -/
structure Dispatcher (τ : Type) where
  targets : List (ClassId × τ) := []

/-- What a dispatcher answers: one target, or all that apply when they are not exactly one. -/
inductive Dispatched (τ : Type)
  | one (target : τ)
  | several (targets : List τ)
deriving DecidableEq, Repr

namespace Dispatcher

variable {τ : Type}

def attach (d : Dispatcher τ) (c : ClassId) (target : τ) : Dispatcher τ :=
  if d.targets.any (·.1 == c) then
    { targets := d.targets.map fun (k, t) => if k == c then (k, target) else (k, t) }
  else { targets := d.targets ++ [(c, target)] }

def dispatch (d : Dispatcher τ) (tree : ClassTree) (c : ClassId) : Dispatched τ :=
  match d.targets.lookup c with
  | some target => .one target
  | none =>
    match (d.targets.filter fun (k, _) => tree.isBelow c k).map (·.2) with
    | [target] => .one target
    | targets => .several targets

/-- Calls with a node of a class and arguments after it. Without any target nothing stands between
the caller and the dispatcher, which then looks for the node one place too far: it fails on a call
without further arguments and finds no target otherwise. -/
def call? {ε : Type} (d : Dispatcher τ) (tree : ClassTree) (c : ClassId) (extra : List ε) :
    Option (Dispatched τ) :=
  if d.targets.isEmpty && extra.isEmpty then none else some (d.dispatch tree c)

end Dispatcher

end AutoCool
