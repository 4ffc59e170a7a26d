import AutoCool.Cool.Grammar

/-!
# The tokens of a Cool text

A text is read line by line. A line is cut into segments: blanks, block comments that end on their
line, characters that belong to nothing, and the lexemes of tokens. At every place the first class
that fits in a fixed order takes as much as it can, so a name that begins with `true`, `false` or
`not` is cut after that word.
-/

namespace AutoCool.Cool

inductive LexemeClass
  | integer
  | string
  | bool
  | not
  | type
  | word
  | mark
deriving DecidableEq, Repr

inductive SegmentKind
  | blank
  | comment
  | illegal
  | lexeme (c : LexemeClass)
deriving DecidableEq, Repr

structure Segment where
  kind : SegmentKind
  chars : List Char
deriving DecidableEq, Repr

namespace Lexer

def isBlank (c : Char) : Bool :=
  c == ' ' || c == '\n' || c == '\r' || c == '\t' || c.toNat == 11 || c.toNat == 12

def isStringChar (c : Char) : Bool := c.toNat != 0 && c != '\n' && c != '"'

def isCommentChar (c : Char) : Bool := c != '(' && c != '*' && c != ')'

def isNameChar (c : Char) : Bool := c.isAlphanum || c == '_'

def keywords : List String :=
  ["class", "inherits", "if", "then", "else", "fi", "while", "loop", "pool", "let", "in", "case",
    "of", "esac",
    "new", "isvoid"]

def marks : List String :=
  ["<-", "<=", "=>", "<", "=", "~", "+", "-", "*", "/", ":", ";", "(", ")", "\x7b", "\x7d", "@",
    ".", ","]

def integer? (cs : List Char) : Option (List Char) :=
  let digits := cs.takeWhile Char.isDigit
  if digits.isEmpty then none else some digits

def string? : List Char → Option (List Char)
  | '"' :: cs =>
    match cs.dropWhile isStringChar with
    | '"' :: _ => some ('"' :: cs.takeWhile isStringChar ++ ['"'])
    | _ => none
  | _ => none

def oneOf? (words : List String) (cs : List Char) : Option (List Char) :=
  words.findSome? fun w => if w.toList.isPrefixOf cs then some w.toList else none

def comment? : List Char → Option (List Char)
  | '(' :: '*' :: cs =>
    let inner := cs.takeWhile isCommentChar
    match inner, cs.dropWhile isCommentChar with
    | _ :: _, '*' :: ')' :: _ => some ('(' :: '*' :: inner ++ ['*', ')'])
    | _, _ => none
  | _ => none

def not? : List Char → Option (List Char)
  | a :: b :: c :: _ =>
    if (a == 'n' || a == 'N') && (b == 'o' || b == 'O') && (c == 't' || c == 'T') then some
      [a, b, c]
    else none
  | _ => none

def name? (first : Char → Bool) : List Char → Option (List Char)
  | c :: cs => if first c then some (c :: cs.takeWhile isNameChar) else none
  | [] => none

/-- What the classes of lexemes and the comments take from the front of a line, in the order in
which they are tried. -/
def classes : List (SegmentKind × (List Char → Option (List Char))) := [
  (.lexeme .integer, integer?),
  (.lexeme .string, string?),
  (.lexeme .bool, oneOf? ["true", "false"]),
  (.comment, comment?),
  (.lexeme .not, not?),
  (.lexeme .type, name? Char.isUpper),
  (.lexeme .word, name? Char.isLower),
  (.lexeme .mark, oneOf? marks)]

def segment (c : Char) (cs : List Char) : Segment :=
  if isBlank c then ⟨.blank, [c]⟩
  else
    match classes.findSome? fun (kind, take) => (take (c :: cs)).map (Segment.mk kind) with
    | some s => s
    | none => ⟨.illegal, [c]⟩

def segments : List Char → List Segment
  | [] => []
  | c :: cs =>
    let s := segment c cs
    s :: segments (cs.drop (s.chars.length - 1))
termination_by cs => cs.length
decreasing_by simp only [List.length_drop, List.length_cons]; omega

def lines : List Char → List (List Char)
  | [] => [[]]
  | c :: cs =>
    if c == '\n' then [] :: lines cs
    else
      match lines cs with
      | [] => [[c]]
      | l :: ls => (c :: l) :: ls

def number (digits : List Char) : Nat := digits.foldl (fun n c => n * 10 + (c.toNat - '0'.toNat)) 0

def terminalName (c : LexemeClass) (chars : List Char) : String :=
  match c with
  | .integer => "integer"
  | .string => "string"
  | .bool => "bool"
  | .not => "not"
  | .type => "type"
  | .word =>
    let lower := (String.ofList chars).toLower
    if keywords.contains lower then lower else "id"
  | .mark => String.ofList chars

/-- What a lexeme carries: the value of a number or truth value, a string without its quotes,
anything else as it is. -/
def lexemeValue (c : LexemeClass) (chars : List Char) : Datum :=
  match c with
  | .integer => .int (number chars)
  | .string => .text (String.ofList (chars.drop 1).dropLast)
  | .bool => .bool (chars == ['t', 'r', 'u', 'e'])
  | _ => .text (String.ofList chars)

end Lexer

/-- What reading a text gives: its tokens without the end mark, the characters that belong to
nothing, and whether it stopped at a number with too many digits. -/
structure Lexed where
  tokens : List Token := []
  illegal : List Char := []
  tooLong : Bool := false

namespace Lexer

def readSegments (line : Nat) : (column : Nat) → List Segment → Lexed → Lexed
  | _, [], after => after
  | column, s :: ss, after =>
    match s.kind with
    | .blank | .comment => readSegments line (column + s.chars.length) ss after
    | .illegal =>
      let rest := readSegments line (column + s.chars.length) ss after
      { rest with illegal := s.chars ++ rest.illegal }
    | .lexeme c =>
      if c == .integer && Text.maxDigits < s.chars.length then { tooLong := true }
      else
        let rest := readSegments line (column + s.chars.length) ss after
        let token : Token :=
          { type := symbol (terminalName c s.chars), lexeme := lexemeValue c s.chars, line, column }
        { rest with tokens := token :: rest.tokens }

def readLines : (line : Nat) → List (List Char) → Lexed
  | _, [] => {}
  | line, l :: ls =>
    let here := readSegments line 0 (segments l) {}
    if here.tooLong then here
    else
      let rest := readLines (line + 1) ls
      { rest with tokens := here.tokens ++ rest.tokens, illegal := here.illegal ++ rest.illegal }

def read (text : String) : Lexed := readLines 1 (lines text.toList)

end Lexer

namespace Lexed

def tokens? (l : Lexed) : Option (List Token) :=
  if l.tooLong then none else some (l.tokens ++ [Token.ofEndMark grammar.endMark])

def report (l : Lexed) : String :=
  String.join (l.illegal.map fun c => "Illegal character '" ++ c.toString ++ "'\n")

end Lexed

end AutoCool.Cool
