import Mathlib.Logic.Relation
import AutoCool.Graph

/-!
# What a walk lists

`Graph.preorder` lists a vertex once (`nodup_preorder`). It lists the vertices of its stack and what
is found through them (`mem_preorder_of_mem`, `mem_preorder_of_next`), and nothing that is not
(`reach_of_mem_preorder`). What it finds through a vertex comes after it (`mem_stack_or_next`).

The walk ends because fewer and fewer vertices are fresh, and cannot be evaluated as it stands.
`Graph.walk` counts the fresh vertices down, and it is the same walk (`preorder_eq_walk`).
-/

namespace AutoCool.Graph

variable {α : Type} [DecidableEq α] {next : α → List α} {fresh stack before after : List α}
  {v w : α}

theorem mem_fresh_of_mem_preorder (h : v ∈ preorder next fresh stack) : v ∈ fresh := by
  induction fresh, stack using preorder.induct next with
  | case1 fresh => rw [preorder_nil] at h; cases h
  | case2 fresh u stack hu ih =>
    rw [preorder_cons_of_mem hu] at h
    rcases List.mem_cons.mp h with rfl | h
    · exact hu
    · exact List.mem_of_mem_erase (ih h)
  | case3 fresh u stack hu ih =>
    rw [preorder_cons_of_not_mem hu] at h
    exact ih h

theorem nodup_preorder (hfresh : fresh.Nodup) : (preorder next fresh stack).Nodup := by
  induction fresh, stack using preorder.induct next with
  | case1 fresh => rw [preorder_nil]; exact List.nodup_nil
  | case2 fresh u stack hu ih =>
    rw [preorder_cons_of_mem hu, List.nodup_cons]
    exact ⟨fun h => (hfresh.mem_erase_iff.mp (mem_fresh_of_mem_preorder h)).1 rfl,
      ih (hfresh.erase u)⟩
  | case3 fresh u stack hu ih =>
    rw [preorder_cons_of_not_mem hu]
    exact ih hfresh

theorem mem_preorder_of_mem (hv : v ∈ stack) (hfresh : v ∈ fresh) :
    v ∈ preorder next fresh stack := by
  induction fresh, stack using preorder.induct next with
  | case1 fresh => cases hv
  | case2 fresh u stack hu ih =>
    rw [preorder_cons_of_mem hu]
    by_cases h : v = u
    · exact h ▸ (.head _)
    · refine .tail u (ih ?_ ((List.mem_erase_of_ne h).mpr hfresh))
      exact List.mem_append_right _ ((List.mem_cons.mp hv).resolve_left h)
  | case3 fresh u stack hu ih =>
    rw [preorder_cons_of_not_mem hu]
    exact ih ((List.mem_cons.mp hv).resolve_left fun h => hu (h ▸ hfresh)) hfresh

theorem mem_preorder_of_next (hv : v ∈ preorder next fresh stack) (hw : w ∈ next v)
    (hfresh : w ∈ fresh) : w ∈ preorder next fresh stack := by
  induction fresh, stack using preorder.induct next with
  | case1 fresh => rw [preorder_nil] at hv; cases hv
  | case2 fresh u stack hu ih =>
    rw [preorder_cons_of_mem hu] at hv ⊢
    by_cases h : w = u
    · exact h ▸ (.head _)
    · have hfresh' := (List.mem_erase_of_ne h).mpr hfresh
      refine .tail u ?_
      rcases List.mem_cons.mp hv with rfl | hv
      · exact mem_preorder_of_mem (List.mem_append_left _ hw) hfresh'
      · exact ih hv hfresh'
  | case3 fresh u stack hu ih =>
    rw [preorder_cons_of_not_mem hu] at hv ⊢
    exact ih hv hfresh

theorem reach_of_mem_preorder (h : v ∈ preorder next fresh stack) :
    ∃ u ∈ stack, Relation.ReflTransGen (fun x y => y ∈ next x) u v := by
  induction fresh, stack using preorder.induct next with
  | case1 fresh => rw [preorder_nil] at h; cases h
  | case2 fresh u stack hu ih =>
    rw [preorder_cons_of_mem hu] at h
    rcases List.mem_cons.mp h with rfl | h
    · exact ⟨v, .head _, .refl⟩
    · obtain ⟨x, hx, hreach⟩ := ih h
      rcases List.mem_append.mp hx with hx | hx
      · exact ⟨u, .head _, .head hx hreach⟩
      · exact ⟨x, .tail u hx, hreach⟩
  | case3 fresh u stack hu ih =>
    rw [preorder_cons_of_not_mem hu] at h
    obtain ⟨x, hx, hreach⟩ := ih h
    exact ⟨x, .tail u hx, hreach⟩

/-- If a vertex that is not fresh leads nowhere, the fresh vertices that are found from the stack
are listed. -/
theorem mem_preorder_iff (hnext : ∀ {u w}, w ∈ next u → u ∈ fresh) : v ∈ preorder next fresh stack ↔
    v ∈ fresh ∧ ∃ u ∈ stack, Relation.ReflTransGen (fun x y => y ∈ next x) u v := by
  constructor
  · exact fun h => ⟨mem_fresh_of_mem_preorder h, reach_of_mem_preorder h⟩
  · rintro ⟨hfresh, u, hu, hreach⟩
    induction hreach with
    | refl => exact mem_preorder_of_mem hu hfresh
    | tail _ hw ih => exact mem_preorder_of_next (ih (hnext hw)) hw hfresh

theorem mem_stack_or_next (h : preorder next fresh stack = before ++ v :: after) :
    v ∈ stack ∨ ∃ u ∈ before, v ∈ next u := by
  induction fresh, stack using preorder.induct next generalizing before with
  | case1 fresh => simp at h
  | case2 fresh u stack hu ih =>
    rw [preorder_cons_of_mem hu] at h
    cases before with
    | nil => exact .inl ((List.cons.inj h).1 ▸ (.head _))
    | cons w before =>
      obtain ⟨rfl, hrest⟩ := List.cons.inj h
      rcases ih hrest with hv | ⟨x, hx, hv⟩
      · rcases List.mem_append.mp hv with hv | hv
        · exact .inr ⟨u, .head _, hv⟩
        · exact .inl (.tail u hv)
      · exact .inr ⟨x, .tail u hx, hv⟩
  | case3 fresh u stack hu ih =>
    rw [preorder_cons_of_not_mem hu] at h
    exact (ih h).imp_left (.tail u)

/-- The depth-first walk from the vertices of a stack, with the number of vertices that can still be
listed. -/
def walk (next : α → List α) : Nat → List α → List α → List α
  | 0, _, _ => []
  | n + 1, fresh, stack =>
    match stack.dropWhile (· ∉ fresh) with
    | [] => []
    | v :: stack => v :: walk next n (fresh.erase v) (next v ++ stack)

theorem preorder_eq_walk (next : α → List α) (fresh stack : List α) :
    preorder next fresh stack = walk next fresh.length fresh stack := by
  induction fresh, stack using preorder.induct next with
  | case1 fresh => cases fresh <;> simp [walk]
  | case2 fresh v stack hv ih =>
    obtain ⟨n, hn⟩ := Nat.exists_eq_succ_of_ne_zero (Nat.ne_of_gt (List.length_pos_of_mem hv))
    rw [preorder_cons_of_mem hv, ih, List.length_erase_of_mem hv, hn, walk,
      List.dropWhile_cons_of_neg (by simpa using hv)]
    rfl
  | case3 fresh v stack hv ih =>
    rw [preorder_cons_of_not_mem hv, ih]
    cases fresh with
    | nil => rfl
    | cons u fresh =>
      rw [List.length_cons, walk, walk, List.dropWhile_cons_of_pos (by simpa using hv)]

end AutoCool.Graph
