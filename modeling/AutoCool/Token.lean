import AutoCool.Grammar.Symbol
import AutoCool.Text.Datum

/-!
# Tokens
-/

namespace AutoCool

/-- A token: its type, the value it carries, and where it begins. Lines count from 1 and columns
from 0. -/
structure Token where
  type : Symbol
  lexeme : Datum
  line : Nat := 0
  column : Nat := 0
deriving DecidableEq, Repr

namespace Token

def text (t : Token) : String := t.lexeme.display

def display (t : Token) : String := t.type.name ++ ": " ++ t.text

def ofEndMark (s : Symbol) : Token := { type := s, lexeme := .text s.name }

end Token

end AutoCool
