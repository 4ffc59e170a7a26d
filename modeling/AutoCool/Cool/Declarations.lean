import AutoCool.Cool.Syntax
import AutoCool.Types.Basic

/-!
# The types that a program declares

First every class of a program gets a type of its name, then the built-in types get their parents
and methods, and the classes their parents, attributes and methods. Both go on until something is
wrong, and what was declared before is kept.
-/

namespace AutoCool.Cool

/-- A change of the types that may be cut short. What was changed before stays. -/
abbrev Declaring := ExceptT Failure (StateM Types)

def Declaring.outcome {α : Type} (d : Declaring α) (ts : Types) : Option Failure × Types :=
  match d.run.run ts with
  | (.ok _, ts) => (none, ts)
  | (.error f, ts) => (some f, ts)

namespace Builtin

def object : TypeId := 3

def io : TypeId := 4

def int : TypeId := 5

def string : TypeId := 6

def bool : TypeId := 7

def types : Types :=
  let special : Types := {}
  { entries := special.entries ++
      #[{ name := "Object" }, { name := "IO" }, { name := "Int" }, { name := "String" },
        { name := "Bool" }]
    context :=
      [("SELF_TYPE", TypeId.self), ("AUTO_TYPE", TypeId.auto), ("Object", object), ("IO", io),
        ("Int", int),
        ("String", string), ("Bool", bool)] }

def methods : List (TypeId × Method) := [
  (object, .ofSignature "abort" [] [] object),
  (object, .ofSignature "type_name" [] [] string),
  (object, .ofSignature "copy" [] [] TypeId.self),
  (io, .ofSignature "out_string" ["x"] [string] TypeId.self),
  (io, .ofSignature "out_int" ["x"] [int] TypeId.self),
  (io, .ofSignature "in_string" [] [] string),
  (io, .ofSignature "in_int" [] [] int),
  (string, .ofSignature "length" [] [] int),
  (string, .ofSignature "concat" ["s"] [string] string),
  (string, .ofSignature "substr" ["i", "l"] [int, int] string)]

end Builtin

def change (f : Types → Except Failure Types) : Declaring Unit := do
  set (← MonadExcept.ofExcept (f (← get)))

def lookUp (name : Token) : Declaring TypeId := do MonadExcept.ofExcept ((← get).find name.text)

def collect : List ClassDecl → Declaring Unit
  | [] => pure ()
  | c :: cs => do
    change fun ts => (ts.create c.name.text).map (·.2)
    collect cs

def buildBuiltins : Declaring Unit := do
  change (·.setParent Builtin.io Builtin.object)
  [Builtin.int, Builtin.string, Builtin.bool].forM fun t => do
    change (·.setParent t Builtin.object)
    modify (·.modify t fun e => { e with isSealed := true })
  Builtin.methods.forM fun (t, m) => change (·.defineMethod t m)

def buildFeature (t : TypeId) : Feature → Declaring Unit
  | .attribute name type _ => do
    let type ← lookUp type
    change (·.defineAttribute t name.text type)
  | .method name params type _ => do
    let types ← params.mapM fun p => lookUp p.type
    let result ← lookUp type
    change (·.defineMethod t (.ofSignature name.text (params.map (·.name.text)) types result))

def buildClass (c : ClassDecl) : Declaring Unit := do
  let t ← lookUp c.name
  let parent ← match c.parent with
    | some p => lookUp p
    | none => pure Builtin.object
  change (·.setParent t parent)
  c.features.forM (buildFeature t)

def build (p : Program) : Declaring Unit := do
  buildBuiltins
  p.classes.forM buildClass

end AutoCool.Cool
