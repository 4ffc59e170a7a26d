import AutoCool.Text.Datum

/-!
# JSON

Reading and writing of the exchange format of grammars. Texts are written in ASCII: every other
character is escaped by its UTF-16 units. Reading follows the same format with blanks anywhere
between tokens. It goes from left to right and stops where the text is not a value any more, or at
an integer with too many digits.
-/

namespace AutoCool.Json

/-! ### Writing -/

def escapeUnit (n : Nat) : String := "\\u" ++ Text.hex 4 n

def escape (c : Char) : String :=
  if c == '"' then "\\\"" else if c == '\\' then "\\\\"
  else if c == '\n' then "\\n" else if c == '\r' then "\\r" else if c == '\t' then "\\t"
  else if c.toNat == 8 then "\\b" else if c.toNat == 12 then "\\f"
  else if 0x20 ≤ c.toNat && c.toNat < 0x7f then c.toString
  else if c.toNat < 0x10000 then escapeUnit c.toNat
  else
    let n := c.toNat - 0x10000
    escapeUnit (0xd800 + n / 0x400) ++ escapeUnit (0xdc00 + n % 0x400)

def writeText (s : String) : String := "\"" ++ String.join (s.toList.map escape) ++ "\""

mutual

/-- A value as JSON, with a blank after every comma and colon. -/
def write : Datum → String
  | .nothing => "null"
  | .bool true => "true"
  | .bool false => "false"
  | .int n => toString n
  | .real spelling => spelling
  | .text s => writeText s
  | .list items => Text.bracketed (writeItems items)
  | .record fields => "\x7b" ++ Text.commas (writeFields fields) ++ "\x7d"

def writeItems : List Datum → List String
  | [] => []
  | d :: ds => write d :: writeItems ds

def writeFields : List (String × Datum) → List String
  | [] => []
  | (name, d) :: fields => (writeText name ++ ": " ++ write d) :: writeFields fields

end

/-! ### Reading -/

inductive ReadError
  | malformed
  | tooLong
deriving DecidableEq, Repr

def orMalformed {α : Type} (part : Option α) : Except ReadError α :=
  part.elim (.error .malformed) .ok

def isBlank (c : Char) : Bool := c == ' ' || c == '\n' || c == '\r' || c == '\t'

def skip (cs : List Char) : List Char := cs.dropWhile isBlank

def after? (word : String) (cs : List Char) : Option (List Char) := word.toList.isPrefixOf? cs

def hexDigit? (c : Char) : Option Nat :=
  if c.isDigit then some (c.toNat - 48)
  else if 'a' ≤ c && c ≤ 'f' then some (c.toNat - 87)
  else if 'A' ≤ c && c ≤ 'F' then some (c.toNat - 55)
  else none

def unit? : List Char → Option (Nat × List Char)
  | a :: b :: c :: d :: cs => do
    some ((((← hexDigit? a) * 16 + (← hexDigit? b)) * 16 + (← hexDigit? c)) * 16 + (← hexDigit? d),
      cs)
  | _ => none

def simpleEscape? (c : Char) : Option Char :=
  if c == '"' || c == '\\' || c == '/' then some c
  else if c == 'b' then some (Char.ofNat 8) else if c == 'f' then some (Char.ofNat 12)
  else if c == 'n' then some '\n' else if c == 'r' then some '\r' else if c == 't' then some '\t'
  else none

/-- The character of a unit, or of two that belong together; a lone half becomes the replacement
character. -/
def unitChar (n : Nat) (cs : List Char) : Char × List Char :=
  if 0xd800 ≤ n && n < 0xdc00 then
    match (after? "\\u" cs).bind unit? with
    | some (m, rest) =>
      if 0xdc00 ≤ m && m < 0xe000 then
        (Char.ofNat (0x10000 + (n - 0xd800) * 0x400 + (m - 0xdc00)), rest)
      else (Char.ofNat 0xfffd, cs)
    | none => (Char.ofNat 0xfffd, cs)
  else if 0xdc00 ≤ n && n < 0xe000 then (Char.ofNat 0xfffd, cs)
  else (Char.ofNat n, cs)

/-- The rest of a text after its opening quote, with the characters read so far, last one first. -/
def readText : (fuel : Nat) → List Char → List Char → Option (String × List Char)
  | 0, _, _ => none
  | fuel + 1, read, cs =>
    match cs with
    | '"' :: cs => some (String.ofList read.reverse, cs)
    | '\\' :: 'u' :: cs => do
      let (n, cs) ← unit? cs
      let (c, cs) := unitChar n cs
      readText fuel (c :: read) cs
    | '\\' :: c :: cs => do readText fuel ((← simpleEscape? c) :: read) cs
    | c :: cs => if c.toNat < 0x20 then none else readText fuel (c :: read) cs
    | [] => none

def digits? (cs : List Char) : Option (List Char × List Char) :=
  let digits := cs.takeWhile Char.isDigit
  if digits.isEmpty then none else some (digits, cs.dropWhile Char.isDigit)

def fraction (cs : List Char) : List Char × List Char :=
  match cs with
  | '.' :: rest =>
    match digits? rest with
    | some (digits, rest) => ('.' :: digits, rest)
    | none => ([], cs)
  | _ => ([], cs)

def exponent (cs : List Char) : List Char × List Char :=
  match cs with
  | c :: rest =>
    if c == 'e' || c == 'E' then
      let (sign, rest) := match rest with
        | '+' :: r => (['+'], r)
        | '-' :: r => (['-'], r)
        | r => ([], r)
      match digits? rest with
      | some (digits, rest) => (c :: sign ++ digits, rest)
      | none => ([], cs)
    else ([], cs)
  | [] => ([], cs)

/-- A number: an integer without needless zeros, then perhaps a fraction and an exponent. -/
def readNumber (cs : List Char) : Except ReadError (Datum × List Char) := do
  let (sign, rest) := match cs with
    | '-' :: r => (['-'], r)
    | r => ([], r)
  let (whole, rest) ← match rest with
    | '0' :: r => pure (['0'], r)
    | r => orMalformed (digits? r)
  let (frac, rest) := fraction rest
  let (exp, rest) := exponent rest
  if frac.isEmpty && exp.isEmpty then
    if Text.maxDigits < whole.length then throw .tooLong
    let n : Int := whole.foldl (fun n c => n * 10 + (c.toNat - 48)) 0
    return (.int (if sign.isEmpty then n else -n), rest)
  else return (.real (String.ofList (sign ++ whole ++ frac ++ exp)), rest)

def readWord? (cs : List Char) : Option (Datum × List Char) :=
  [("null", Datum.nothing), ("true", .bool true), ("false", .bool false), ("NaN", .real "nan"),
    ("Infinity", .real "inf"), ("-Infinity", .real "-inf")].findSome? fun (word, d) =>
      (after? word cs).map (d, ·)

def setField (fields : List (String × Datum)) (name : String) (d : Datum) : List (String × Datum) :=
  if fields.any (·.1 == name) then fields.map fun f => if f.1 == name then (name, d) else f
  else fields ++ [(name, d)]

mutual

def readValue : (fuel : Nat) → List Char → Except ReadError (Datum × List Char)
  | 0, _ => .error .malformed
  | fuel + 1, cs =>
    match cs with
    | '"' :: rest => do
      let (s, rest) ← orMalformed (readText (rest.length + 1) [] rest)
      return (.text s, rest)
    | '[' :: rest =>
      match skip rest with
      | ']' :: rest => .ok (.list [], rest)
      | rest => readItems fuel [] rest
    | c :: rest =>
      if c == '\x7b' then
        match skip rest with
        | '\x7d' :: rest => .ok (.record [], rest)
        | rest => readFields fuel [] rest
      else (readWord? cs).elim (readNumber cs) .ok
    | [] => .error .malformed

def readItems : (fuel : Nat) → List Datum → List Char → Except ReadError (Datum × List Char)
  | 0, _, _ => .error .malformed
  | fuel + 1, items, cs => do
    let (d, rest) ← readValue fuel cs
    match skip rest with
    | ']' :: rest => return (.list (items ++ [d]), rest)
    | ',' :: rest => readItems fuel (items ++ [d]) (skip rest)
    | _ => throw .malformed

def readFields : (fuel : Nat) → List (String × Datum) → List Char → Except ReadError
    (Datum × List Char)
  | 0, _, _ => .error .malformed
  | fuel + 1, fields, cs =>
    match cs with
    | '"' :: rest => do
      let (name, rest) ← orMalformed (readText (rest.length + 1) [] rest)
      match skip rest with
      | ':' :: rest => do
        let (d, rest) ← readValue fuel (skip rest)
        let fields := setField fields name d
        match skip rest with
        | '\x7d' :: rest => return (.record fields, rest)
        | ',' :: rest => readFields fuel fields (skip rest)
        | _ => throw .malformed
      | _ => throw .malformed
    | _ => .error .malformed

end

def read (s : String) : Except ReadError Datum := do
  let cs := skip s.toList
  let (d, rest) ← readValue (2 * cs.length + 2) cs
  if (skip rest).isEmpty then return d else throw .malformed

end AutoCool.Json
