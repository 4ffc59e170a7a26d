/-!
# Offsets into a list

An offset names a place of a list by a number: from the front if it is not negative, and from the
end if it is.
-/

namespace AutoCool.Offset

/-- The index of the place that an offset names in a list of `n` items, if there is such a place. -/
def index? (n : Nat) (i : Int) : Option Nat :=
  let j := if i < 0 then i + n else i
  if 0 ≤ j && j < n then some j.toNat else none

/-- The number of items before the place that an offset names in a list of `n` items. An offset
beyond an end names the end. -/
def before (n : Nat) (i : Int) : Nat := if i < 0 then (i + n).toNat else min i.toNat n

end AutoCool.Offset
