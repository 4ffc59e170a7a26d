import AutoCool.Cool.Syntax
import AutoCool.Types.Basic

/-!
# What is said about a program

Diagnostics say what is wrong and where, and findings say which types were inferred.
-/

namespace AutoCool.Cool

/-- What is wrong. Types are given by what is shown of them. -/
inductive Complaint
  | cyclicHeritage (type : String)
  | cannotConvert (source target : String)
  | differentSignature (method type parent : String)
  | readOnlySelf
  | noVariable (name method : String)
  | noOperation (left right : String)
  | branchType (type : String)
  | dispatchType (type : String)
  | noDispatch (method : String)
  | declaration (e : DeclarationError)
deriving DecidableEq, Repr

def Complaint.message : Complaint → String
  | .cyclicHeritage t => "Type \"" ++ t ++ "\" froms a cyclic heritage chain"
  | .cannotConvert s t => "Cannot convert \"" ++ s ++ "\" into \"" ++ t ++ "\"."
  | .differentSignature m t p =>
    "Method \"" ++ m ++ "\" of \"" ++ t ++ "\" already defined in \"" ++ p ++
      "\" with a different signature."
  | .readOnlySelf => "Variable \"self\" is read-only."
  | .noVariable n m => "Variable \"" ++ n ++ "\" is not defined in \"" ++ m ++ "\"."
  | .noOperation l r => "Operation is not defined between \"" ++ l ++ "\" and \"" ++ r ++ "\"."
  | .branchType t => "Type \"" ++ t ++ "\" canot be used as case branch type"
  | .dispatchType t => "Type \"" ++ t ++ "\" canot be used as type of a dispatch"
  | .noDispatch m => "Method \"" ++ m ++ "\" canot be dispatched"
  | .declaration e => e.message

def Position.label (p : Position) : String :=
  "Error on Ln " ++ toString p.line ++ ", Col " ++ toString p.column ++ ": "

structure Diagnostic where
  place : Position
  complaint : Complaint
deriving DecidableEq, Repr

def Diagnostic.message (d : Diagnostic) : String := d.place.label ++ d.complaint.message

inductive Finding
  | attribute (cls name type : String)
  | param (method cls name type : String)
  | result (method cls type : String)
  | binding (place : Position) (name type : String)
deriving DecidableEq, Repr

def Finding.message : Finding → String
  | .attribute c a t => "On class \"" ++ c ++ "\", attribute \"" ++ a ++ "\": type \"" ++ t ++ "\""
  | .param m c p t =>
    "On method \"" ++ m ++ "\" of class \"" ++ c ++ "\", param \"" ++ p ++ "\": type \"" ++ t ++
      "\""
  | .result m c t =>
    "Return of method \"" ++ m ++ "\" in class \"" ++ c ++ "\", type \"" ++ t ++ "\""
  | .binding place v t => place.label ++ "Varible \"" ++ v ++ "\", type \"" ++ t ++ "\""

end AutoCool.Cool
