import AutoCool.Cool.Analysis
import AutoCool.Proofs.Cool.Layout
import AutoCool.Proofs.Types.Order

/-!
# Where a walk stands and what may cut it short

The expressions of a program have numbers, in the order in which a walk meets them. What may cut any
walk short is said in terms of what is noted under these numbers (`Stuck`).
-/

namespace AutoCool.Cool

variable {nodes : List Expr} {k : Nat} {a a' : Analysis} {e : Expr}

/-! ## Places in a program -/

/-- Some expressions stand one after the other from number `k` on. -/
def Placed (nodes : List Expr) (k : Nat) (l : List Expr) : Prop := l <+: nodes.drop k

theorem Placed.head (h : Placed nodes k (e :: l)) : nodes[k]? = some e := by
  obtain ⟨r, hr⟩ := h
  have := congrArg (·[0]?) hr
  simpa using this.symm

theorem Placed.left (h : Placed nodes k (l ++ l')) : Placed nodes k l :=
  (List.prefix_append l l').trans h

theorem Placed.right (h : Placed nodes k (l ++ l')) : Placed nodes (k + l.length) l' := by
  obtain ⟨r, hr⟩ := h
  refine ⟨r, ?_⟩
  rw [← List.drop_drop, ← hr, List.append_assoc, List.drop_left]

/-! ## What may cut a walk short -/

/-- The type that is noted of the expression of number `k`. -/
def Analysis.typeAt (a : Analysis) (k : Nat) : Option (Option TypeId) := (a.notes[k]?).bind (·.type)

/-- The scope that is noted of the expression of number `k`. -/
def Analysis.scopeAt (a : Analysis) (k : Nat) : Option ScopeId := (a.notes[k]?).map (·.scope)

/-- The type of one expression is joined with that of another one. Both are given by how far they
are behind the expression whose type this gives; the branches of a `case` are joined one by one with
what it has so far. -/
inductive Expr.Joins : Expr → Nat → Nat → Prop
  | branches {c x y} : Joins (.ifThenElse c x y) (1 + c.size) (1 + c.size + x.size)
  | next {x before b after} :
      Joins (.caseOf x (before ++ b :: after)) 0 (1 + x.size + Expr.sizeOfBranches before)

/-- An expression that was gone through has no type. -/
def Untyped (nodes : List Expr) (a : Analysis) : Prop :=
  ∃ k e, nodes[k]? = some e ∧ k + e.size ≤ a.cursor ∧ a.typeAt k = some none

/-- What may cut any walk over a program short. -/
inductive Stuck (nodes : List Expr) (a : Analysis) : Failure → Prop
  | noJoin {k e i j t u} : nodes[k]? = some e → e.Joins i j → a.typeAt (k + i) = some (some t) →
      a.typeAt (k + j) = some u → a.types.NoJoin t u → Stuck nodes a .outOfRange
  | untyped : Untyped nodes a → Stuck nodes a .absent
  /-- No text is read as a block without expressions. -/
  | emptyBlock {k : Nat} : nodes[k]? = some (.block []) → Stuck nodes a .outOfRange

theorem Stuck.of_join (h : a.types.Hierarchy) (he : nodes[k]? = some e) (hjoins : e.Joins i j)
    (ht : a.typeAt (k + i) = some (some t)) (hu : a.typeAt (k + j) = some u)
    (hf : a.types.join t u = .error f) : Stuck nodes a f := by
  obtain ⟨rfl, hno⟩ := h.join_error hf
  exact .noJoin he hjoins ht hu hno

theorem Untyped.mono (h : Untyped nodes a) (hkept : ∀ j < a.cursor, a'.notes[j]? = a.notes[j]?)
    (hcursor : a.cursor ≤ a'.cursor) : Untyped nodes a' := by
  obtain ⟨k, e, hk, hsize, htype⟩ := h
  have hpos := e.size_eq
  refine ⟨k, e, hk, by omega, ?_⟩
  rw [Analysis.typeAt, hkept k (by omega)]
  exact htype

end AutoCool.Cool
