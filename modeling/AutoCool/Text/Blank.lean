/-!
# Blanks

Names are declared with blanks around them removed, and several names at once are given in one text
with blanks between them. A blank is any character that separates words in running text: the control
characters that end a line or a field, and the space characters of every width.
-/

namespace AutoCool.Text

def isBlank (c : Char) : Bool :=
  let n := c.toNat
  (0x09 ≤ n && n ≤ 0x0d) || (0x1c ≤ n && n ≤ 0x20) || n == 0x85 || n == 0xa0 || n == 0x1680 ||
    (0x2000 ≤ n && n ≤ 0x200a) || n == 0x2028 || n == 0x2029 || n == 0x202f || n == 0x205f ||
    n == 0x3000

def trim (s : String) : String :=
  String.ofList ((s.toList.dropWhile isBlank).reverse.dropWhile isBlank).reverse

def wordsFrom (word : List Char) : List Char → List String
  | [] => if word.isEmpty then [] else [String.ofList word.reverse]
  | c :: cs =>
    if isBlank c then
      if word.isEmpty then wordsFrom [] cs else String.ofList word.reverse :: wordsFrom [] cs
    else wordsFrom (c :: word) cs

/-- The words of a text: its longest runs without a blank, in order. -/
def words (s : String) : List String := wordsFrom [] s.toList

end AutoCool.Text
