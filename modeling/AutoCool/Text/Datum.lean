import AutoCool.Text.Printable

/-!
# Plain values

The values that stand beside the symbols of a grammar and the states of an automaton: nothing, truth
values, integers, texts, lists and records. `Datum.display` writes a value for reading and
`Datum.quote` writes it so that texts can be told from names.
-/

namespace AutoCool

/-- A plain value. A number that is no integer keeps the digits it was written with. -/
inductive Datum
  | nothing
  | bool (value : Bool)
  | int (value : Int)
  | real (spelling : String)
  | text (value : String)
  | list (items : List Datum)
  | record (fields : List (String × Datum))
deriving Inhabited, Repr

namespace Datum

mutual

def equals : Datum → Datum → Bool
  | .nothing, .nothing => true
  | .bool a, .bool b => a == b
  | .int a, .int b => a == b
  | .real a, .real b => a == b
  | .text a, .text b => a == b
  | .list a, .list b => equalsItems a b
  | .record a, .record b => equalsFields a b
  | _, _ => false

def equalsItems : List Datum → List Datum → Bool
  | [], [] => true
  | a :: as, b :: bs => equals a b && equalsItems as bs
  | _, _ => false

def equalsFields : List (String × Datum) → List (String × Datum) → Bool
  | [], [] => true
  | (m, a) :: as, (n, b) :: bs => m == n && equals a b && equalsFields as bs
  | _, _ => false

end

mutual

theorem equals_iff : (a b : Datum) → (equals a b = true ↔ a = b)
  | .nothing, b => by cases b <;> simp [equals]
  | .bool _, b => by cases b <;> simp [equals]
  | .int _, b => by cases b <;> simp [equals]
  | .real _, b => by cases b <;> simp [equals]
  | .text _, b => by cases b <;> simp [equals]
  | .list items, b => by cases b <;> simp [equals, equalsItems_iff items]
  | .record fields, b => by cases b <;> simp [equals, equalsFields_iff fields]

theorem equalsItems_iff : (as bs : List Datum) → (equalsItems as bs = true ↔ as = bs)
  | [], bs => by cases bs <;> simp [equalsItems]
  | a :: as, bs => by cases bs <;> simp [equalsItems, equals_iff a, equalsItems_iff as]

theorem equalsFields_iff : (as bs : List (String × Datum)) → (equalsFields as bs = true ↔ as = bs)
  | [], bs => by cases bs <;> simp [equalsFields]
  | (m, a) :: as, bs => by
    cases bs <;> simp [equalsFields, equals_iff a, equalsFields_iff as, Prod.ext_iff, and_assoc]

end

instance : DecidableEq Datum := fun a b => decidable_of_iff _ (equals_iff a b)

end Datum

namespace Text

def maxDigits : Nat := 4300

def hex (width n : Nat) : String :=
  let digits := Nat.toDigits 16 n
  String.ofList (List.replicate (width - digits.length) '0' ++ digits)

def quoteChar (mark c : Char) : String :=
  if c == mark || c == '\\' then "\\" ++ c.toString
  else if c == '\n' then "\\n"
  else if c == '\r' then "\\r"
  else if c == '\t' then "\\t"
  else if isPrintable c then c.toString
  else if c.toNat < 0x100 then "\\x" ++ hex 2 c.toNat
  else if c.toNat < 0x10000 then "\\u" ++ hex 4 c.toNat
  else "\\U" ++ hex 8 c.toNat

def quote (s : String) : String :=
  let mark := if s.contains '\'' && !s.contains '"' then '"' else '\''
  mark.toString ++ String.join (s.toList.map (quoteChar mark)) ++ mark.toString

def commas (items : List String) : String := String.intercalate ", " items

def bracketed (items : List String) : String := "[" ++ commas items ++ "]"

def tupled : List String → String
  | [item] => "(" ++ item ++ ",)"
  | items => "(" ++ commas items ++ ")"

end Text

namespace Datum

mutual

def quote : Datum → String
  | .nothing => "None"
  | .bool true => "True"
  | .bool false => "False"
  | .int n => toString n
  | .real spelling => spelling
  | .text s => Text.quote s
  | .list items => Text.bracketed (quoteAll items)
  | .record fields => "\x7b" ++ Text.commas (quoteFields fields) ++ "\x7d"

def quoteAll : List Datum → List String
  | [] => []
  | d :: ds => d.quote :: quoteAll ds

def quoteFields : List (String × Datum) → List String
  | [] => []
  | (name, d) :: fields => (Text.quote name ++ ": " ++ d.quote) :: quoteFields fields

end

def display : Datum → String
  | .text s => s
  | d => d.quote

/-! ### Operations -/

def number? : Datum → Option Int
  | .int n => some n
  | .bool b => some b.toNat
  | _ => none

mutual

/-- Whether two values count as the same: numbers by what they count as, lists item by item, and
records whatever the order of their fields. -/
def same : Datum → Datum → Bool
  | .nothing, .nothing => true
  | .real a, .real b => a == b
  | .text a, .text b => a == b
  | .list a, .list b => sameItems a b
  | .record a, .record b => a.length == b.length && sameFields a b
  | a@(.int _), b | a@(.bool _), b => number? a == number? b
  | _, _ => false

def sameItems : List Datum → List Datum → Bool
  | [], [] => true
  | a :: as, b :: bs => same a b && sameItems as bs
  | _, _ => false

def sameFields : List (String × Datum) → List (String × Datum) → Bool
  | [], _ => true
  | (name, a) :: as, bs => ((bs.lookup name).map (same a)).getD false && sameFields as bs

end

def add? : Datum → Datum → Option Datum
  | .text a, .text b => some (.text (a ++ b))
  | .list a, .list b => some (.list (a ++ b))
  | a, b => do some (.int ((← number? a) + (← number? b)))

/-- The number whose binary digits are those of either number. The digits of a negative number are
those of the natural number below its opposite, each one turned over. -/
def orInt : Int → Int → Int
  | .ofNat a, .ofNat b => .ofNat (a ||| b)
  | .ofNat a, .negSucc b | .negSucc b, .ofNat a => .negSucc (b ^^^ (b &&& a))
  | .negSucc a, .negSucc b => .negSucc (a &&& b)

def mergeFields (a b : List (String × Datum)) : List (String × Datum) :=
  a.map (fun (name, d) => (name, (b.lookup name).getD d)) ++ b.filter fun f => !a.any (·.1 == f.1)

def or? : Datum → Datum → Option Datum
  | .bool a, .bool b => some (.bool (a || b))
  | .record a, .record b => some (.record (mergeFields a b))
  | a, b => do some (.int (orInt (← number? a) (← number? b)))

/-- The items of a value that has items; a text has its characters and a record the names of its
fields. -/
def items? : Datum → Option (List Datum)
  | .text s => some (s.toList.map fun c => .text c.toString)
  | .list items => some items
  | .record fields => some (fields.map fun f => .text f.1)
  | _ => none

end Datum

end AutoCool
