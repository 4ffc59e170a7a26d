/-!
# Symbols

A symbol is what one declaration made: two declarations of one name are two symbols. The number of
the declaration tells them apart, and the generation is that of the grammar the symbol was declared
in.
-/

namespace AutoCool

inductive SymbolKind
  | terminal
  | nonterminal
  | endMark
deriving DecidableEq, Repr

structure Symbol where
  id : Nat
  name : String
  kind : SymbolKind
  generation : Nat := 0
deriving DecidableEq, Repr

namespace Symbol

def endMark (id : Nat) : Symbol := { id, name := "$", kind := .endMark }

def isNonterminal (s : Symbol) : Bool := s.kind == .nonterminal

def isTerminal (s : Symbol) : Bool := !s.isNonterminal

def sortedNames (symbols : List Symbol) : List String :=
  (symbols.map (·.name)).mergeSort fun x y => decide (x ≤ y)

end Symbol

end AutoCool
