import Mathlib.Computability.EpsilonNFA
import AutoCool.Proofs.Automaton.Subset

/-!
# Paths of an automaton

The moves of an automaton make it a nondeterministic one with silent moves in the sense of the
textbook (`Automaton.toεNFA`). `Automaton.closure` finds what can be reached silently, so a word is
accepted when the symbols on a path to an accepting state spell it (`accepts_iff_isPath`).
`Automaton.visit` lists what can be reached at all (`visit_lists_reachable`).
-/

namespace AutoCool

variable {α : Type}

namespace Automaton

/-- The automaton as its moves alone. A number that no state has leads nowhere and does not
accept. -/
def toεNFA (a : Automaton α) : εNFA String Nat where
  step i
    | none => {j | ∃ s, a.states[i]? = some s ∧ j ∈ s.silent.targets}
    | some x => {j | ∃ s ts, a.states[i]? = some s ∧ s.moves.lookup x = some ts ∧ j ∈ ts}
  start := {a.start}
  accept := {j | ∃ s, a.states[j]? = some s ∧ s.final = true}

variable {a : Automaton α} {sources current : List Nat} {S : Set Nat} {x : String} {w : List String}
  {i j : Nat}

theorem lt_size_of_step (h : j ∈ a.toεNFA.step i y) : i < a.states.size := by
  cases y with
  | none =>
    obtain ⟨s, hs, -⟩ := h
    exact (Array.getElem?_eq_some_iff.mp hs).1
  | some x =>
    obtain ⟨s, ts, hs, -⟩ := h
    exact (Array.getElem?_eq_some_iff.mp hs).1

theorem mem_silentTargets : j ∈ a.silentTargets i ↔ j ∈ a.toεNFA.step i none := by
  rw [silentTargets]
  cases hs : a.states[i]? <;> simp [toεNFA, hs]

theorem mem_targets (hlabels : ∀ s ∈ a.states, ∀ m ∈ s.moves, m.1.isEmpty = false) :
    j ∈ a.targets x i ↔ j ∈ a.toεNFA.step i (some x) := by
  rw [targets]
  cases hs : a.states[i]? with
  | none => simp [toεNFA, hs]
  | some s =>
    by_cases hx : x ∈ s.moves.map (·.1)
    · obtain ⟨ts, hmem, hlookup⟩ := State.lookup_of_mem hx
      have hne : x.isEmpty = false := hlabels s (Array.mem_of_getElem? hs) _ hmem
      simp [toεNFA, hs, State.targets, State.hasMove_iff.mpr hx, State.get?, hne, hlookup]
    · have hmove : s.hasMove x = false := by rwa [← Bool.not_eq_true, State.hasMove_iff]
      have hlookup : s.moves.lookup x = none := by
        refine List.lookup_eq_none_iff.mpr fun m hm => ?_
        simpa using fun he : x = m.1 => hx (he ▸ List.mem_map_of_mem hm)
      simp [toεNFA, hs, State.targets, hmove, hlookup]

/-! ### Silent moves -/

theorem mem_εClosure_iff_reach : j ∈ a.toεNFA.εClosure S ↔
    ∃ i ∈ S, Relation.ReflTransGen (fun i j => j ∈ a.silentTargets i) i j := by
  constructor
  · intro h
    induction h with
    | base i hi => exact ⟨i, hi, .refl⟩
    | step k j hj _ ih =>
      obtain ⟨i, hi, hreach⟩ := ih
      exact ⟨i, hi, hreach.tail (mem_silentTargets.mpr hj)⟩
  · rintro ⟨i, hi, hreach⟩
    induction hreach with
    | refl => exact .base i hi
    | tail _ hj ih => exact εNFA.εClosure.step _ _ (mem_silentTargets.mp hj) ih

theorem mem_closure :
    j ∈ a.closure sources ↔ j < a.states.size ∧ j ∈ a.toεNFA.εClosure {i | i ∈ sources} := by
  rw [mem_closure_iff_reach, mem_εClosure_iff_reach]
  rfl

theorem lt_size_of_εClosure (hj : j < a.states.size) (h : j ∈ a.toεNFA.εClosure {i}) :
    i < a.states.size := by
  obtain ⟨_, rfl, hreach⟩ := mem_εClosure_iff_reach.mp h
  rcases hreach.cases_head with rfl | ⟨k, hk, -⟩
  · exact hj
  · exact lt_size_of_step (mem_silentTargets.mp hk)

/-! ### Words -/

theorem mem_closure_move (hlabels : ∀ s ∈ a.states, ∀ m ∈ s.moves, m.1.isEmpty = false)
    (hset : ∀ i, i ∈ current ↔ i < a.states.size ∧ i ∈ S) :
    j ∈ a.closure (a.move x current) ↔ j < a.states.size ∧ j ∈ a.toεNFA.stepSet S x := by
  have hmove : ∀ k, k ∈ a.move x current ↔ k < a.states.size ∧ ∃ i ∈ S,
      k ∈ a.toεNFA.step i (some x) := by
    intro k
    simp only [move, List.mem_filter, numbers, List.mem_range, decide_eq_true_iff,
      List.mem_flatMap, hset,
      mem_targets hlabels]
    refine and_congr_right fun _ => exists_congr fun i => ?_
    exact ⟨fun h => ⟨h.1.2, h.2⟩, fun h => ⟨⟨lt_size_of_step h.2, h.1⟩, h.2⟩⟩
  rw [mem_closure, εNFA.mem_stepSet_iff, εNFA.mem_εClosure_iff_exists]
  refine and_congr_right fun hj => ⟨?_, ?_⟩
  · rintro ⟨k, hk, hreach⟩
    obtain ⟨-, i, hi, hstep⟩ := (hmove k).mp hk
    exact ⟨i, hi, a.toεNFA.mem_εClosure_iff_exists.mpr ⟨k, hstep, hreach⟩⟩
  · rintro ⟨i, hi, hreach⟩
    obtain ⟨k, hstep, hreach⟩ := a.toεNFA.mem_εClosure_iff_exists.mp hreach
    exact ⟨k, (hmove k).mpr ⟨lt_size_of_εClosure hj hreach, i, hi, hstep⟩, hreach⟩

/-- Symbol by symbol, a word leads to the states in which the automaton can be. -/
theorem mem_run (hlabels : ∀ s ∈ a.states, ∀ m ∈ s.moves, m.1.isEmpty = false)
    (hset : ∀ i, i ∈ current ↔ i < a.states.size ∧ i ∈ S) :
    j ∈ a.run current w ↔ j < a.states.size ∧ j ∈ w.foldl a.toεNFA.stepSet S := by
  induction w generalizing current S with
  | nil => exact hset j
  | cons x w ih => exact ih fun i => mem_closure_move hlabels hset

theorem isFinal_iff : a.isFinal j = true ↔ j ∈ a.toεNFA.accept := by
  rw [isFinal]
  cases hs : a.states[j]? <;> simp [toεNFA, hs]

/-- What is found for some states is what can be reached from them silently. A word is accepted when
a path leads to an accepting state and the symbols on it, without the silent moves, spell the
word. -/
theorem accepts_iff_isPath (a : Automaton α)
    (hlabels : ∀ s ∈ a.states, ∀ m ∈ s.moves, m.1.isEmpty = false) :
    (∀ sources j, j ∈ a.closure sources ↔ j < a.states.size ∧
      j ∈ a.toεNFA.εClosure {i | i ∈ sources}) ∧
    (∀ i w, a.acceptsFrom i w = true ↔
      ∃ j ∈ a.toεNFA.accept, ∃ path, path.reduceOption = w ∧ a.toεNFA.IsPath i j path) ∧
    ∀ w, a.accepts w = true ↔ w ∈ a.toεNFA.accepts := by
  have hfrom : ∀ i w, a.acceptsFrom i w = true ↔ ∃ j ∈ a.toεNFA.accept,
      j ∈ a.toεNFA.evalFrom {i} w := by
    intro i w
    have hset : ∀ j, j ∈ a.closure [i] ↔ j < a.states.size ∧ j ∈ a.toεNFA.εClosure {i} := by
      intro j
      simp [mem_closure]
    rw [acceptsFrom, List.any_eq_true]
    refine exists_congr fun j => ?_
    rw [mem_run hlabels hset, isFinal_iff, and_comm]
    refine and_congr_right fun haccept => and_iff_right ?_
    obtain ⟨s, hs, -⟩ := haccept
    exact (Array.getElem?_eq_some_iff.mp hs).1
  refine ⟨fun sources j => mem_closure, fun i w => ?_, hfrom a.start⟩
  rw [hfrom]
  exact exists_congr fun j => and_congr_right fun _ => εNFA.mem_evalFrom_iff_exists_path _

end Automaton

/-- The cycle of silent moves is left over `a`, and `b` leads back into it. -/
theorem Sample.looping_isPath : (∀ s ∈ looping.states, ∀ m ∈ s.moves, m.1.isEmpty = false) ∧
    looping.closure [1] = [0, 1] ∧ looping.accepts ["a", "b", "a"] = true ∧ looping.accepts
    ["a", "b"] = false ∧ (∃ j ∈ looping.toεNFA.accept, ∃ path, path.reduceOption = ["a", "b", "a"] ∧
      looping.toεNFA.IsPath 0 j path) ∧ ¬ ∃ j ∈ looping.toεNFA.accept, ∃ path,
    path.reduceOption = ["a", "b"] ∧ looping.toεNFA.IsPath 0 j path := by
  obtain ⟨-, hfrom, -⟩ := Automaton.accepts_iff_isPath looping looping_labels
  have hyes : looping.accepts ["a", "b", "a"] = true := by decide +kernel
  have hno : looping.accepts ["a", "b"] = false := by decide +kernel
  refine ⟨looping_labels, by decide +kernel, hyes, hno, (hfrom _ _).mp hyes, fun h => ?_⟩
  cases hno.symm.trans ((hfrom 0 ["a", "b"]).mpr h)

namespace Automaton

/-- The walk begins with the start and lists what can be reached from it, each state once. What
comes later has a move to it from something before. -/
theorem visit_lists_reachable (a : Automaton α) (hstart : a.start < a.states.size) :
    (∃ rest, a.visit = a.start :: rest) ∧ a.visit.Nodup ∧
    (∀ j, j ∈ a.visit ↔ j < a.states.size ∧ a.Reachable j) ∧ ∀ before j after,
    a.visit = before ++ j :: after → before ≠ [] → ∃ i ∈ before, j ∈ a.successors i := by
  have hnext : ∀ {i j}, j ∈ a.successors i → i ∈ a.numbers := by
    intro i j hj
    refine List.mem_range.mpr (Nat.lt_of_not_le fun hle => ?_)
    simp [successors, Array.getElem?_eq_none hle] at hj
  have hfirst : a.visit = a.start :: _ := Graph.preorder_cons_of_mem (List.mem_range.mpr hstart)
  have hnodup : a.visit.Nodup := Graph.nodup_preorder List.nodup_range
  refine ⟨⟨_, hfirst⟩, hnodup, fun j => ?_, fun before j after h hne => ?_⟩
  · rw [visit, Graph.mem_preorder_iff hnext, numbers, List.mem_range]
    simp [Reachable]
  · refine (Graph.mem_stack_or_next h).resolve_left fun hj => ?_
    -- the start is listed first, and not once more
    obtain ⟨i, before, rfl⟩ := List.exists_cons_of_ne_nil hne
    rw [h, List.nodup_append] at hnodup
    refine hnodup.2.2 i (.head _) j (.head _) ?_
    rw [List.mem_singleton.mp hj]
    exact (List.cons.inj (h.symm.trans hfirst)).1

end Automaton

theorem Sample.looping_lists_reachable :
    looping.start < looping.states.size ∧ looping.visit = [0, 1, 2] ∧
    (∀ j, j ∈ looping.visit ↔ j < looping.states.size ∧ looping.Reachable j) ∧ ∃ i ∈ [0, 1],
    2 ∈ looping.successors i := by
  have hvisit : looping.visit = [0, 1, 2] := by
    simp only [Automaton.visit, Graph.preorder_eq_walk]
    decide
  obtain ⟨-, -, hmem, hbefore⟩ := looping.visit_lists_reachable (by decide)
  exact ⟨by decide, hvisit, hmem, hbefore [0, 1] 2 [] hvisit (by simp)⟩

end AutoCool
