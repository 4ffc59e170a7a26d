import AutoCool.Proofs.Graph
import AutoCool.Proofs.LR1.States

/-!
# Numbering the states

The walk over an automaton lists a state once and is closed under the moves between the states it
can list, so the states can be numbered in its order: the automaton that is numbered anew traces the
same item sets.
-/

namespace AutoCool

namespace LR1

/-- Each element of a list without repetitions is assigned its place in the list. -/
theorem getElem?_foldl_set {order : List Nat} (hnodup : order.Nodup) (hk : order[k]? = some i)
    (hi : i < ps.size) :
    ((order.zipIdx n).foldl (fun (ps : Array Nat) (i, k) => ps.set! i k) ps)[i]? =
      some (n + k) := by
  -- what the list does not have is left alone
  have hkeep : ∀ {order : List Nat} {ps : Array Nat} {n : Nat}, i ∉ order →
      ((order.zipIdx n).foldl (fun (ps : Array Nat) (i, k) => ps.set! i k) ps)[i]? = ps[i]? := by
    intro order
    induction order with
    | nil => exact fun _ => rfl
    | cons j order ih =>
      intro ps n hmem
      have hne : j ≠ i := fun h => hmem (h ▸ (.head _))
      rw [List.zipIdx_cons, List.foldl_cons, ih fun h => hmem (.tail j h)]
      exact Array.getElem?_setIfInBounds_ne hne
  induction order generalizing ps k n with
  | nil => cases hk
  | cons j order ih =>
    rw [List.nodup_cons] at hnodup
    rw [List.zipIdx_cons, List.foldl_cons]
    cases k with
    | zero =>
      obtain rfl : j = i := Option.some.inj hk
      rw [hkeep hnodup.1]
      simp [hi]
    | succ k =>
      rw [ih hnodup.2 hk (by simpa using hi)]
      congr 1; omega

theorem getElem?_filterMap {f : α → Option β} {l : List α} (h : ∀ x ∈ l, (f x).isSome)
    (k : Nat) : (l.filterMap f)[k]? = l[k]?.bind f := by
  induction l generalizing k with
  | nil => rfl
  | cons x l ih =>
    obtain ⟨y, hy⟩ := Option.isSome_iff_exists.mp (h x (.head _))
    rw [List.filterMap_cons_some hy]
    cases k with
    | zero => simp [hy]
    | succ k => simpa using ih (fun x' hx => h x' (.tail x hx)) k

section Renumber

variable (a : Automaton (List Item))

/-- The place of a state in the order of the walk. -/
def place (i : Nat) : Nat :=
  (a.visit.zipIdx.foldl (fun (ps : Array Nat) (i, k) => ps.set! i k)
    (Array.replicate a.states.size 0)).getD i 0

/-- A state with its moves to places. -/
def moved (k : Nat) (q : State (List Item)) : State (List Item) :=
  { q with
    moves := q.moves.map fun (x, ts) => (x, ts.map (place a))
    tag := "I" ++ toString k }

variable {a} {i j k : Nat} {q : State (List Item)}

theorem lt_size_of_mem_visit (h : i ∈ a.visit) : i < a.states.size :=
  List.mem_range.mp (Graph.mem_fresh_of_mem_preorder h)

theorem visit_nodup : a.visit.Nodup := Graph.nodup_preorder List.nodup_range

theorem place_eq (h : a.visit[k]? = some i) : place a i = k := by
  have hi : i < (Array.replicate a.states.size 0).size := by
    rw [Array.size_replicate]
    exact lt_size_of_mem_visit (List.mem_of_getElem? h)
  have := getElem?_foldl_set (n := 0) visit_nodup h hi
  rw [place, Array.getD_eq_getD_getElem?, this, Option.getD_some, Nat.zero_add]

theorem states_renumber (k : Nat) :
    (renumber a).states[k]? = (a.visit[k]?.bind (a.states[·]?)).map (moved a k) := by
  have hsome : ∀ i ∈ a.visit, (a.states[i]?).isSome := fun i hi => by
    simp [lt_size_of_mem_visit hi]
  rw [← getElem?_filterMap hsome]
  simp only [renumber, Array.getElem?_mapIdx, List.getElem?_toArray]
  rfl

theorem moved_of_visit (hk : a.visit[k]? = some i) (hq : a.states[i]? = some q) :
    (renumber a).states[k]? = some (moved a k q) := by
  rw [states_renumber, hk, Option.bind_some, hq]; rfl

theorem visit_of_move (hk : a.visit[k]? = some i) (hq : a.states[i]? = some q)
    (hmove : j ∈ (q.moves.lookup x).getD []) (hj : j < a.states.size) :
    a.visit[place a j]? = some j := by
  have hsucc : j ∈ a.successors i := by
    cases hjs : q.moves.lookup x with
    | none => rw [hjs] at hmove; cases hmove
    | some js =>
      rw [hjs] at hmove
      obtain ⟨l1, l2, hl, -⟩ := List.lookup_eq_some_iff.mp hjs
      rw [Automaton.successors, hq]
      refine List.mem_append_left _ (List.mem_flatMap.mpr ⟨(x, js), ?_, hmove⟩)
      rw [hl]; simp
  have hmem : j ∈ a.visit :=
    Graph.mem_preorder_of_next (List.mem_of_getElem? hk) hsucc (List.mem_range.mpr hj)
  obtain ⟨k', hk'⟩ := List.mem_iff_getElem?.mp hmem
  rw [place_eq hk', hk']

theorem lookup_moved (x : String) :
    (moved a k q).moves.lookup x = (q.moves.lookup x).map (·.map (place a)) := by
  simp only [moved]
  induction q.moves with
  | nil => rfl
  | cons e l ih =>
    rw [List.map_cons, List.lookup_cons, List.lookup_cons, ih]
    cases x == e.1 <;> rfl

theorem visit_zero (h : a.start < a.states.size) : a.visit[0]? = some a.start := by
  rw [Automaton.visit, Automaton.numbers, Graph.preorder_cons_of_mem (List.mem_range.mpr h)]
  rfl

theorem start_renumber (h : a.start < a.states.size) : (renumber a).start = 0 :=
  place_eq (visit_zero h)

/-- The automaton that is numbered anew traces the same item sets. -/
theorem Setting.Traces.renumber {t : Setting ρ} (h : t.Traces a kernel0) :
    t.Traces (LR1.renumber a) kernel0 := by
  -- every state is one that the walk listed
  have hold : ∀ {k : Nat} {q' : State (List Item)}, (LR1.renumber a).states[k]? = some q' →
      ∃ i q, a.visit[k]? = some i ∧ a.states[i]? = some q ∧ q' = moved a k q := by
    intro k q' hq'
    rw [states_renumber] at hq'
    obtain ⟨q, hq, rfl⟩ := Option.map_eq_some_iff.mp hq'
    obtain ⟨i, hi, hq⟩ := Option.bind_eq_some_iff.mp hq
    exact ⟨i, q, hi, hq, rfl⟩
  refine ⟨?_, ?_, ?_, ?_⟩
  · obtain ⟨q, hq, hlabel⟩ := h.start
    have hlt := (Array.getElem?_eq_some_iff.mp hq).1
    rw [start_renumber hlt]
    exact ⟨_, moved_of_visit (visit_zero hlt) hq, hlabel⟩
  · intro k q' hq'
    obtain ⟨i, q, -, hq, rfl⟩ := hold hq'
    exact h.reached (q := q) hq
  · intro k q' hq'
    obtain ⟨i, q, -, hq, rfl⟩ := hold hq'
    exact h.itemSet (q := q) hq
  · intro k q' hq' name
    obtain ⟨i, q, hi, hq, rfl⟩ := hold hq'
    obtain ⟨hne, hmoves⟩ := h.moves hq name
    have hgetD : ((moved a k q).moves.lookup name).getD [] = ((q.moves.lookup name).getD []).map
        (place a) := by
      rw [lookup_moved]
      cases q.moves.lookup name <;> rfl
    refine ⟨fun hnil => hne ?_, ?_⟩
    · rw [lookup_moved] at hnil
      obtain ⟨js, hjs, hmap⟩ := Option.map_eq_some_iff.mp hnil
      rw [hjs, List.map_eq_nil_iff.mp hmap]
    · rw [hgetD, List.forall₂_map_right_iff]
      refine List.forall₂_iff_get.mpr ⟨hmoves.length_eq, fun n hn hn' => ?_⟩
      obtain ⟨q1, hq1, hlabel⟩ := hmoves.get hn hn'
      have hj := visit_of_move hi hq (List.get_mem _ ⟨n, hn'⟩) (Array.getElem?_eq_some_iff.mp hq1).1
      exact ⟨_, moved_of_visit hj hq1, hlabel⟩

end Renumber

end LR1

end AutoCool
