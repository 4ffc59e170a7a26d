/-!
# Sets with an epsilon mark

What a phrase can begin with is a set of symbols together with the answer to the question whether
the phrase can be empty. The second part is the epsilon mark. The updates answer whether they
changed anything, which is what an iteration to a fixed point asks.
-/

namespace AutoCool

/-- A finite set with an epsilon mark. The items are kept without repetition. -/
structure MarkedSet (α : Type) where
  items : List α := []
  epsilon : Bool := false
deriving Repr

namespace MarkedSet

variable {α : Type} [DecidableEq α]

def size (s : MarkedSet α) : Nat := s.items.length + s.epsilon.toNat

def insert (s : MarkedSet α) (v : α) : MarkedSet α :=
  if v ∈ s.items then s else { s with items := s.items ++ [v] }

def insertAll (s : MarkedSet α) (vs : List α) : MarkedSet α := vs.foldl insert s

def ofList (vs : List α) (epsilon : Bool := false) : MarkedSet α :=
  insertAll { epsilon } vs

def absorb (s t : MarkedSet α) : MarkedSet α := s.insertAll t.items

def absorbMark (s t : MarkedSet α) : MarkedSet α := { s with epsilon := s.epsilon || t.epsilon }

def join (s t : MarkedSet α) : MarkedSet α := (s.absorb t).absorbMark t

def hasItems (s : MarkedSet α) (vs : List α) : Bool :=
  s.items.all (· ∈ vs) && vs.all (· ∈ s.items)

def same (s t : MarkedSet α) : Bool := s.hasItems t.items && s.epsilon == t.epsilon

/-- Whether a set grew: its items only ever increase, so their number tells. -/
def grew (before after : MarkedSet α) : Bool :=
  before.items.length != after.items.length || before.epsilon != after.epsilon

def display (quote : α → String) (s : MarkedSet α) : String :=
  let items := if s.items.isEmpty then "set()" else "\x7b" ++ String.intercalate ", "
      (s.items.map quote) ++ "\x7d"
  items ++ "-" ++ if s.epsilon then "True" else "False"

@[simp] theorem mem_insert {s : MarkedSet α} {v w : α} :
    w ∈ (s.insert v).items ↔ w ∈ s.items ∨ w = v := by
  unfold insert
  split
  · rename_i h
    exact ⟨.inl, fun h' => h'.elim id (· ▸ h)⟩
  · simp

@[simp] theorem mem_insertAll {s : MarkedSet α} {vs : List α} {w : α} :
    w ∈ (s.insertAll vs).items ↔ w ∈ s.items ∨ w ∈ vs := by
  unfold insertAll
  induction vs generalizing s with
  | nil => simp
  | cons v vs ih => simp [ih, or_assoc]

end MarkedSet

end AutoCool
