import AutoCool.Text.Datum
import AutoCool.Types.Basic

/-!
# How types are shown
-/

namespace AutoCool.Types

def displayAttribute (ts : Types) (a : Attribute) : String :=
  "[attrib] " ++ a.name ++ ": " ++ ts.name a.type ++ ";"

def displayMethod (ts : Types) (m : Method) : String :=
  let params := (m.paramNames.zip m.paramTypes).map fun (p, t) => p ++ ": " ++ ts.name t
  "[method] " ++ m.name ++ "(" ++ Text.commas params ++ "): " ++ ts.name m.returnType ++ ";"

def featureBreak : String := "\n\t"

def displayType (ts : Types) (t : TypeId) : String :=
  let e := ts.get t
  let parent := match e.parent with
    | none => ""
    | some p => " : " ++ ts.name p
  "type " ++ e.name ++ parent ++ " \x7b" ++
    (if e.attributes.isEmpty && e.methods.isEmpty then "" else featureBreak) ++
    String.intercalate featureBreak (e.attributes.map ts.displayAttribute) ++
    (if e.attributes.isEmpty then "" else featureBreak) ++
    String.intercalate featureBreak (e.methods.map ts.displayMethod) ++
    (if e.methods.isEmpty then "" else "\n") ++ "\x7d\n"

def displayContext (ts : Types) : String :=
  let lines := ts.context.flatMap fun (_, t) => (ts.displayType t).splitOn "\n"
  featureBreak ++ String.intercalate featureBreak lines ++ "\n"

end AutoCool.Types
