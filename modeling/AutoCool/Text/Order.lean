/-!
# The order of lists of texts
-/

namespace AutoCool.Text

/-- Whether a list of texts does not come after another one: the first texts that differ decide, and
a list comes before those that begin with it. -/
def lexLe (a b : List String) : Bool := !b.lex a fun x y => decide (x < y)

end AutoCool.Text
