/-!
# Sets of small numbers

A finite set of natural numbers as one number: bit `i` tells whether `i` is in the set. Two sets
with the same members are the same value.
-/

namespace AutoCool

structure BitSet where
  bits : Nat := 0
deriving DecidableEq, Repr, Inhabited

namespace BitSet

def empty : BitSet := {}

def isEmpty (s : BitSet) : Bool := s.bits == 0

def contains (s : BitSet) (i : Nat) : Bool := s.bits.testBit i

def singleton (i : Nat) : BitSet := ⟨Nat.pow 2 i⟩

def union (s t : BitSet) : BitSet := ⟨s.bits ||| t.bits⟩

def ofList (is : List Nat) : BitSet := is.foldr (fun i s => (singleton i).union s) empty

@[simp] theorem contains_empty (i : Nat) : empty.contains i = false := Nat.zero_testBit i

@[simp] theorem contains_singleton (i j : Nat) : (singleton i).contains j = decide (i = j) :=
  Nat.testBit_two_pow

@[simp] theorem contains_union (s t : BitSet) (i : Nat) :
    (s.union t).contains i = (s.contains i || t.contains i) := Nat.testBit_or ..

@[simp] theorem contains_ofList (is : List Nat) (i : Nat) :
    (ofList is).contains i = decide (i ∈ is) := by
  induction is with
  | nil => simp [ofList]
  | cons j is ih =>
    have : ofList (j :: is) = (singleton j).union (ofList is) := rfl
    rw [this, contains_union, contains_singleton, ih]
    by_cases h : i = j <;> simp [h, eq_comm (a := j)]

theorem ext {s t : BitSet} (h : ∀ i, s.contains i = t.contains i) : s = t := by
  cases s; cases t
  exact congrArg mk (Nat.eq_of_testBit_eq h)

end BitSet

end AutoCool
