/-!
# Walking a finite graph

`preorder` lists the vertices that can be reached from a stack of vertices, each one once and before
the vertices that are found through it. The vertices not yet listed are given explicitly, so that
the walk ends because that list gets shorter: no bound on the number of steps is needed.
-/

namespace AutoCool.Graph

variable {α : Type} [DecidableEq α]

/-- The depth-first walk from the vertices of a stack, first one first. `fresh` holds the vertices
that have not been listed; a vertex outside it is passed over. -/
def preorder (next : α → List α) (fresh : List α) : List α → List α
  | [] => []
  | v :: stack =>
    if v ∈ fresh then v :: preorder next (fresh.erase v) (next v ++ stack)
    else preorder next fresh stack
termination_by stack => (fresh.length, stack.length)
decreasing_by
  · rename_i h
    have := List.length_erase_of_mem h
    have := List.length_pos_of_mem h
    exact Prod.Lex.left _ _ (by omega)
  · exact Prod.Lex.right _ (by simp)

@[simp] theorem preorder_nil (next : α → List α) (fresh : List α) :
    preorder next fresh [] = [] := by
  rw [preorder]

theorem preorder_cons_of_mem {next : α → List α} {fresh : List α} {v : α} {stack : List α}
    (h : v ∈ fresh) :
    preorder next fresh (v :: stack) = v :: preorder next (fresh.erase v) (next v ++ stack) := by
  rw [preorder, if_pos h]

theorem preorder_cons_of_not_mem {next : α → List α} {fresh : List α} {v : α} {stack : List α}
    (h : v ∉ fresh) : preorder next fresh (v :: stack) = preorder next fresh stack := by
  rw [preorder, if_neg h]

end AutoCool.Graph
