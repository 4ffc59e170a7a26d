import Mathlib.Algebra.Group.Nat.Defs
import Mathlib.Data.List.Sublists
import AutoCool.Automaton.Subset
import AutoCool.Proofs.Graph

/-!
# The subset construction

Rounds of silent moves that stop when a set grows no more find what silent moves lead to
(`mem_closure_iff_reach`).

`Automaton.determinize` lists the sets of states that it finds, and a state of its result stands for
the set at the same place (`Determinized`). A set is found once, and there are at most `2 ^ n` of
them, so the number of sets that is allowed is enough (`subsetStates_ok`). In another order the same
sets are found (`found_perm`). A word leads the result to the one state that stands for the set of
states in which the automaton can be after the word, or nowhere if there is no such set
(`Determinized.run_eq`).
-/

namespace AutoCool

variable {α : Type}

namespace State

variable {s : State α} {x : String}

theorem hasMove_iff : s.hasMove x = true ↔ x ∈ s.moves.map (·.1) := by simp [hasMove]

theorem lookup_of_mem (hx : x ∈ s.moves.map (·.1)) :
    ∃ ts, (x, ts) ∈ s.moves ∧ s.moves.lookup x = some ts := by
  cases hlookup : s.moves.lookup x with
  | none =>
    obtain ⟨m, hm, rfl⟩ := List.mem_map.mp hx
    simpa using List.lookup_eq_none_iff.mp hlookup m hm
  | some ts =>
    obtain ⟨ms, ms', hmoves, -⟩ := List.lookup_eq_some_iff.mp hlookup
    exact ⟨ts, by simp [hmoves], rfl⟩

end State

namespace Automaton

variable {a : Automaton α} {set : List Nat} {sets : List (List Nat)} {x : String} {i j k : Nat}

/-- Some moves, labelled or silent, lead from the start to the state. -/
def Reachable (a : Automaton α) : Nat → Prop :=
  Relation.ReflTransGen (fun i j => j ∈ a.successors i) a.start

/-! ### Sets of states -/

/-- The states of a set are in ascending order, each one once. -/
def InOrder (a : Automaton α) (set : List Nat) : Prop := set = a.numbers.filter (· ∈ set)

theorem inOrder_filter (a : Automaton α) (p : Nat → Bool) : a.InOrder (a.numbers.filter p) := by
  refine List.filter_congr fun i hi => ?_
  simp [hi]

theorem InOrder.ext (h : a.InOrder set) (h' : a.InOrder set') (hmem : ∀ i, i ∈ set ↔ i ∈ set') :
    set = set' := by
  rw [h, h']
  exact List.filter_congr fun i _ => by simp [hmem]

theorem length_le_of_inOrder (hnodup : sets.Nodup) (h : ∀ set ∈ sets, a.InOrder set) :
    sets.length ≤ 2 ^ a.states.size := by
  have hsub : sets ⊆ a.numbers.sublists := fun set hset => by
    rw [List.mem_sublists, h set hset]
    exact List.filter_sublist
  have := (List.subperm_of_subset hnodup hsub).length_le
  rwa [List.length_sublists, numbers, List.length_range] at this

/-! ### Rounds of silent moves -/

theorem InOrder.lt (h : a.InOrder set) (hi : i ∈ set) : i < a.states.size := by
  rw [h] at hi
  exact List.mem_range.mp (List.mem_of_mem_filter hi)

theorem mem_silentRound :
    j ∈ a.silentRound set ↔ j < a.states.size ∧ (j ∈ set ∨ ∃ i ∈ set, j ∈ a.silentTargets i) := by
  simp [silentRound, numbers]

theorem inOrder_silentRounds (h : a.InOrder set) : a.InOrder (a.silentRounds set) := by
  fun_induction silentRounds a set with
  | case1 set next _ ih => exact ih (a.inOrder_filter _)
  | case2 => exact h

theorem InOrder.silentRound_eq (h : a.InOrder set)
    (hle : ¬ set.length < (a.silentRound set).length) : a.silentRound set = set := by
  have hsub : set.Sublist (a.silentRound set) := by
    nth_rewrite 1 [h]
    exact List.monotone_filter_right _ fun i hi => by simp [of_decide_eq_true hi]
  exact (hsub.eq_of_length_le (Nat.le_of_not_lt hle)).symm

theorem lt_size_of_silentTargets (h : j ∈ a.silentTargets i) : i < a.states.size := by
  refine Nat.lt_of_not_le fun hle => ?_
  simp [silentTargets, Array.getElem?_eq_none hle] at h

theorem mem_silentRounds (h : a.InOrder set) : j ∈ a.silentRounds set ↔ j < a.states.size ∧
    ∃ i ∈ set, Relation.ReflTransGen (fun i j => j ∈ a.silentTargets i) i j := by
  fun_induction silentRounds a set with
  | case1 set next _ ih =>
    rw [ih (a.inOrder_filter _)]
    refine and_congr_right fun _ => ⟨?_, ?_⟩
    · rintro ⟨i, hi, hreach⟩
      obtain ⟨-, hi | ⟨k, hk, hi⟩⟩ := mem_silentRound.mp hi
      · exact ⟨i, hi, hreach⟩
      · exact ⟨k, hk, .head hi hreach⟩
    · rintro ⟨i, hi, hreach⟩
      exact ⟨i, mem_silentRound.mpr ⟨h.lt hi, .inl hi⟩, hreach⟩
  | case2 set next hle =>
    refine ⟨fun hj => ⟨h.lt hj, j, hj, .refl⟩, ?_⟩
    rintro ⟨hj, i, hi, hreach⟩
    induction hreach with
    | refl => exact hi
    | tail _ hk ih =>
      rw [← h.silentRound_eq hle]
      exact mem_silentRound.mpr ⟨hj, .inr ⟨_, ih (lt_size_of_silentTargets hk), hk⟩⟩

theorem inOrder_closure (a : Automaton α) (sources : List Nat) : a.InOrder (a.closure sources) :=
  inOrder_silentRounds (a.inOrder_filter _)

theorem mem_closure_iff_reach : j ∈ a.closure sources ↔ j < a.states.size ∧
    ∃ i ∈ sources, Relation.ReflTransGen (fun i j => j ∈ a.silentTargets i) i j := by
  rw [closure, mem_silentRounds (a.inOrder_filter _)]
  refine and_congr_right fun hj => exists_congr fun i => and_congr_left fun hreach => ?_
  simp only [List.mem_filter, numbers, List.mem_range, decide_eq_true_iff, and_iff_right_iff_imp]
  rcases hreach.cases_head with rfl | ⟨k, hk, -⟩
  · exact fun _ => hj
  · exact fun _ => lt_size_of_silentTargets hk

@[simp] theorem closure_nil (a : Automaton α) : a.closure [] = [] := by
  simp [List.eq_nil_iff_forall_not_mem, mem_closure_iff_reach]

@[simp] theorem move_nil (a : Automaton α) (x : String) : a.move x [] = [] := by simp [move]

@[simp] theorem run_nil (a : Automaton α) (w : List String) : a.run [] w = [] := by
  induction w with
  | nil => rfl
  | cons x w ih => rw [run, move_nil, closure_nil, ih]

/-! ### The symbols of a set -/

theorem nodup_eraseDups {l : List String} : l.eraseDups.Nodup := by
  induction l using List.reverseRecOn with
  | nil => exact .nil
  | append_singleton l x ih =>
    rw [List.eraseDups_append]
    by_cases hx : x ∈ l
    · simpa [List.removeAll, hx] using ih
    · have hnew : ([x].removeAll l).eraseDups = [x] := by
        simp [List.removeAll, hx, List.eraseDups_cons]
      rw [hnew, ← List.concat_eq_append]
      exact ih.concat fun hmem => hx (List.mem_eraseDups.mp hmem)

theorem nodup_symbols (a : Automaton α) (set : List Nat) : (a.symbols set).Nodup :=
  (List.mergeSort_perm _ _).nodup_iff.mpr nodup_eraseDups

theorem mem_symbols :
    x ∈ a.symbols set ↔ ∃ i ∈ set, ∃ s, a.states[i]? = some s ∧ x ∈ s.moves.map (·.1) := by
  rw [symbols, List.mem_mergeSort, List.mem_eraseDups, List.mem_flatMap]
  refine exists_congr fun i => and_congr_right fun _ => ?_
  cases a.states[i]? <;> simp

theorem move_eq_nil (h : x ∉ a.symbols set) : a.move x set = [] := by
  rw [move, List.filter_eq_nil_iff]
  intro j _ hj
  obtain ⟨i, hi, hj⟩ := List.mem_flatMap.mp (of_decide_eq_true hj)
  rw [targets] at hj
  cases hs : a.states[i]? with
  | none => simp [hs] at hj
  | some s =>
    have hmove : s.hasMove x = false := by
      rw [← Bool.not_eq_true, State.hasMove_iff]
      exact fun hx => h (mem_symbols.mpr ⟨i, hi, s, hs, hx⟩)
    simp [hs, State.targets, hmove] at hj

/-! ### Finding the sets -/

/-- The sets that symbols lead to from the states in which the automaton starts. -/
def ReachedSet (a : Automaton α) : List Nat → Prop :=
  Relation.ReflTransGen (fun s t => ∃ x ∈ a.symbols s, t = a.closure (a.move x s))
    (a.closure [a.start])

theorem ReachedSet.inOrder (h : a.ReachedSet set) : a.InOrder set := by
  rcases h.cases_tail with rfl | ⟨s, -, x, -, rfl⟩
  · exact a.inOrder_closure _
  · exact a.inOrder_closure _

/-- The sets that were found: each one once, and none that cannot be reached. -/
structure Listed (a : Automaton α) (sets : List (List Nat)) : Prop where
  nodup : sets.Nodup
  reached : ∀ set ∈ sets, a.ReachedSet set

theorem listed_start (a : Automaton α) : a.Listed [a.closure [a.start]] :=
  ⟨List.nodup_singleton _, fun _ hset => List.mem_singleton.mp hset ▸ .refl⟩

theorem Listed.inOrder (h : a.Listed sets) : ∀ set ∈ sets, a.InOrder set :=
  fun set hset => (h.reached set hset).inOrder

theorem Listed.concat (h : a.Listed sets) (hset : a.ReachedSet set) (hnot : set ∉ sets) :
    a.Listed (sets ++ [set]) where
  nodup := by simpa using h.nodup.concat hnot
  reached t ht := (List.mem_append.mp ht).elim (h.reached t) fun ht =>
    List.mem_singleton.mp ht ▸ hset

/-- A set gets the place where it is, or a new one behind the others. -/
theorem Listed.placeOf (h : a.Listed sets) (hset : a.ReachedSet set) :
    sets <+: (placeOf sets set).2 ∧ a.Listed (placeOf sets set).2 ∧
      (placeOf sets set).2[(placeOf sets set).1]? = some set := by
  unfold Automaton.placeOf
  cases hfind : sets.findIdx? (· == set) with
  | some k =>
    obtain ⟨hk, heq, -⟩ := List.findIdx?_eq_some_iff_getElem.mp hfind
    exact ⟨List.prefix_rfl, h, by rw [List.getElem?_eq_getElem hk, eq_of_beq heq]⟩
  | none =>
    have hnot : set ∉ sets := fun hmem => by simpa using List.findIdx?_eq_none_iff.mp hfind set hmem
    exact ⟨List.prefix_append .., h.concat hset hnot, List.getElem?_concat_length⟩

theorem getElem?_prefix (hsub : sets <+: sets') (hk : sets[k]? = some set) :
    sets'[k]? = some set := by
  obtain ⟨rest, rfl⟩ := hsub
  rw [List.getElem?_append_left (List.getElem?_eq_some_iff.mp hk).1, hk]

/-- The moves lead from a set, each with its symbol to the place of one set. -/
def MovesFrom (a : Automaton α) (sets : List (List Nat)) (set : List Nat)
    (moves : List (String × List Nat)) : Prop :=
  ∀ m ∈ moves, ∃ k, m.2 = [k] ∧ sets[k]? = some (a.closure (a.move m.1 set))

theorem MovesFrom.mono (hsub : sets <+: sets') (h : a.MovesFrom sets set moves) :
    a.MovesFrom sets' set moves := by
  intro m hm
  obtain ⟨k, hk, hget⟩ := h m hm
  exact ⟨k, hk, getElem?_prefix hsub hget⟩

/-- The moves of a set, one for each of its symbols, and the sets that are found on the way. -/
theorem Listed.subsetMoves (h : a.Listed sets) (hset : a.ReachedSet set) :
    sets <+: (a.subsetMoves set sets).2 ∧ a.Listed (a.subsetMoves set sets).2 ∧
      (a.subsetMoves set sets).1.map (·.1) = a.symbols set ∧
      a.MovesFrom (a.subsetMoves set sets).2 set (a.subsetMoves set sets).1 := by
  -- symbol by symbol: what was found before stays, and one more move is made
  suffices hfold : ∀ (xs : List String) (moves : List (String × List Nat)) (sets : List (List Nat)),
      xs ⊆ a.symbols set → a.Listed sets → a.MovesFrom sets set moves →
      let r := xs.foldl (fun r x =>
        (r.1 ++ [(x, [(Automaton.placeOf r.2 (a.closure (a.move x set))).1])],
          (Automaton.placeOf r.2 (a.closure (a.move x set))).2)) (moves, sets)
      sets <+: r.2 ∧ a.Listed r.2 ∧ r.1.map (·.1) = moves.map (·.1) ++ xs ∧
        a.MovesFrom r.2 set r.1 from
    hfold (a.symbols set) [] sets (fun _ h => h) h (by simp [MovesFrom])
  intro xs
  induction xs with
  | nil => exact fun moves sets _ h hmoves => ⟨List.prefix_rfl, h, by simp, hmoves⟩
  | cons x xs ih =>
    intro moves sets hxs h hmoves
    obtain ⟨hx, hxs⟩ := List.cons_subset.mp hxs
    obtain ⟨hpre, hlisted, hplace⟩ := h.placeOf (hset.tail ⟨x, hx, rfl⟩)
    have hmoves' : a.MovesFrom (Automaton.placeOf sets (a.closure (a.move x set))).2 set
        (moves ++ [(x, [(Automaton.placeOf sets (a.closure (a.move x set))).1])]) := by
      intro m hm
      rcases List.mem_append.mp hm with hm | hm
      · exact hmoves.mono hpre m hm
      · exact List.mem_singleton.mp hm ▸ ⟨_, rfl, hplace⟩
    obtain ⟨hpre', hlisted', hmap, hfrom⟩ := ih _ _ hxs hlisted hmoves'
    exact ⟨hpre.trans hpre', hlisted', by simpa using hmap, hfrom⟩

/-- The state stands for a set: it accepts if some state of the set does, and it has a move for each
symbol of the set and no silent ones. -/
structure StandsFor (a : Automaton α) (sets : List (List Nat)) (set : List Nat)
    (s : State (List Nat)) : Prop where
  label : s.label = set
  final : s.final = set.any a.isFinal
  silent : s.silent.targets = []
  symbols : s.moves.map (·.1) = a.symbols set
  moves : a.MovesFrom sets set s.moves

/-- The sets that are found from a place on have each a state that stands for it. However many more
sets are allowed, no more are found. -/
theorem subsetStates_ok (h : a.Listed sets) (hfuel : 2 ^ a.states.size ≤ fuel + k) :
    ∃ sets' states, sets <+: sets' ∧
    a.Listed sets' ∧ List.Forall₂ (a.StandsFor sets') (sets'.drop k) states ∧
    ∀ n, fuel ≤ n → a.subsetStates n sets k = states := by
  induction fuel generalizing sets k with
  | zero =>
    have hlen : sets.length ≤ k := by
      have := length_le_of_inOrder h.nodup h.inOrder
      omega
    refine ⟨sets, [], List.prefix_rfl,
      h, by rw [List.drop_eq_nil_of_le hlen]; exact .nil, fun n _ => ?_⟩
    cases n with
    | zero => rfl
    | succ n => rw [subsetStates, List.getElem?_eq_none hlen]
  | succ fuel ih =>
    cases hk : sets[k]? with
    | none =>
      have hlen := List.getElem?_eq_none_iff.mp hk
      refine ⟨sets, [], List.prefix_rfl,
        h, by rw [List.drop_eq_nil_of_le hlen]; exact .nil, fun n hn => ?_⟩
      obtain ⟨m, rfl⟩ := Nat.exists_eq_add_one_of_ne_zero (Nat.ne_of_gt (Nat.zero_lt_of_lt hn))
      rw [subsetStates, hk]
    | some set =>
      obtain ⟨hpre, hlisted, hsymbols, hmoves⟩ :=
        h.subsetMoves (h.reached set (List.mem_of_getElem? hk))
      obtain ⟨sets', states, hpre', hlisted', hstates, hn⟩ := ih hlisted (k := k + 1) (by omega)
      have hget : sets'[k]? = some set := getElem?_prefix (hpre.trans hpre') hk
      let s : State (List Nat) :=
        { label := set, final := set.any a.isFinal, moves := (a.subsetMoves set sets).1 }
      refine ⟨sets', s :: states, hpre.trans hpre', hlisted', ?_, fun n hle => ?_⟩
      · rw [List.drop_eq_getElem_cons (List.getElem?_eq_some_iff.mp hget).1,
          (List.getElem?_eq_some_iff.mp hget).2]
        exact .cons ⟨rfl, rfl, rfl, hsymbols, hmoves.mono hpre'⟩ hstates
      · obtain ⟨m, rfl⟩ := Nat.exists_eq_add_one_of_ne_zero (Nat.ne_of_gt (Nat.zero_lt_of_lt hle))
        rw [subsetStates, hk]
        exact congrArg (s :: ·) (hn m (Nat.le_of_succ_le_succ hle))

/-! ### The states of the result -/

/-- The automaton has one state for each of some sets: it starts with the states that can be reached
silently from the start, and the state at a place stands for the set at that place. -/
structure Determinized (a : Automaton α) (sets : List (List Nat)) (d : Automaton (List Nat)) :
    Prop where
  listed : a.Listed sets
  start : sets[d.start]? = some (a.closure [a.start])
  states : List.Forall₂ (a.StandsFor sets) sets d.states.toList

/-- The construction ends by itself, whatever number of sets above the bound is allowed. -/
theorem determinize_ok (a : Automaton α) :
    ∃ sets, a.Determinized sets a.determinize ∧ ∀ n, 2 ^ a.states.size ≤ n →
    a.subsetStates n [a.closure [a.start]] 0 = a.determinize.states.toList := by
  obtain ⟨sets, states, hpre, hlisted, hstates, hn⟩ :=
    subsetStates_ok a.listed_start (k := 0) (Nat.le_refl (2 ^ _))
  have hdet : a.determinize.states.toList = states := hn _ (Nat.le_refl (2 ^ _))
  refine ⟨sets, ⟨hlisted, getElem?_prefix hpre rfl, ?_⟩, fun n hle => (hn n hle).trans hdet.symm⟩
  rw [hdet]
  simpa using hstates

namespace Determinized

variable {d : Automaton (List Nat)} {s : State (List Nat)} {w : List String}

theorem filter_numbers_singleton (hi : i < d.states.size) : d.numbers.filter (· ∈ [i]) = [i] := by
  have hcount : d.numbers.count i = 1 :=
    List.count_eq_one_of_mem List.nodup_range (List.mem_range.mpr hi)
  simp only [List.mem_singleton]
  rw [show (fun j => decide (j = i)) = (· == i) from rfl, List.filter_beq, hcount]
  rfl

variable (h : a.Determinized sets d)

include h

theorem size_eq : d.states.size = sets.length := h.states.length_eq.symm

theorem state_of_set (hi : sets[i]? = some set) :
    ∃ s, d.states[i]? = some s ∧ a.StandsFor sets set s := by
  obtain ⟨hlt, hget⟩ := List.getElem?_eq_some_iff.mp hi
  have hlt' : i < d.states.toList.length := h.states.length_eq ▸ hlt
  refine ⟨d.states.toList[i], by simp, ?_⟩
  exact hget ▸ (List.forall₂_iff_get.mp h.states).2 i hlt hlt'

theorem set_of_state (hi : d.states[i]? = some s) :
    ∃ set, sets[i]? = some set ∧ a.StandsFor sets set s := by
  have hlt : i < sets.length := h.size_eq ▸ (Array.getElem?_eq_some_iff.mp hi).1
  obtain ⟨s', hs', hstands⟩ := h.state_of_set (List.getElem?_eq_getElem hlt)
  cases hi.symm.trans hs'
  exact ⟨_, List.getElem?_eq_getElem hlt, hstands⟩

theorem of_reachable (hi : d.Reachable i) :
    ∃ set s, sets[i]? = some set ∧ d.states[i]? = some s ∧ a.StandsFor sets set s := by
  induction hi with
  | refl =>
    obtain ⟨s, hs, hstands⟩ := h.state_of_set h.start
    exact ⟨_, s, h.start, hs, hstands⟩
  | @tail i j _ hj ih =>
    obtain ⟨set, s, -, hs, hstands⟩ := ih
    simp only [successors, hs, Option.map_some, Option.getD_some, State.successors, hstands.silent,
      List.append_nil, List.mem_flatMap] at hj
    obtain ⟨m, hm, hj⟩ := hj
    obtain ⟨k, hk, hget⟩ := hstands.moves m hm
    rw [hk, List.mem_singleton] at hj
    obtain ⟨t, ht, hstands'⟩ := h.state_of_set hget
    exact ⟨_, t, hj ▸ hget, hj ▸ ht, hstands'⟩

theorem eq_of_same_states (hs : d.states[i]? = some s) (ht : d.states[j]? = some t)
    (hmem : ∀ q, q ∈ s.label ↔ q ∈ t.label) : i = j := by
  obtain ⟨set, hi, hstands⟩ := h.set_of_state hs
  obtain ⟨set', hj, hstands'⟩ := h.set_of_state ht
  rw [hstands.label, hstands'.label] at hmem
  have heq : set = set' :=
    (h.listed.inOrder set (List.mem_of_getElem? hi)).ext
      (h.listed.inOrder set' (List.mem_of_getElem? hj)) hmem
  exact (List.getElem?_inj (List.getElem?_eq_some_iff.mp hi).1 h.listed.nodup).mp
    (hi.trans (heq ▸ hj.symm))

theorem labels_eq : d.states.toList.map (·.label) = sets := by
  refine List.forall₂_eq_eq_eq ▸ List.forall₂_map_left_iff.mpr
    (h.states.flip.imp fun s set hstands => ?_)
  exact hstands.label

theorem mem_of_symbol (hset : set ∈ sets) (hx : x ∈ a.symbols set) :
    a.closure (a.move x set) ∈ sets := by
  obtain ⟨i, hi⟩ := List.mem_iff_getElem?.mp hset
  obtain ⟨s, -, hstands⟩ := h.state_of_set hi
  obtain ⟨m, hm, rfl⟩ := List.mem_map.mp (hstands.symbols ▸ hx)
  obtain ⟨k, -, hk⟩ := hstands.moves m hm
  exact List.mem_of_getElem? hk

theorem mem_iff_reached : set ∈ sets ↔ a.ReachedSet set := by
  refine ⟨h.listed.reached set, fun hset => ?_⟩
  induction hset with
  | refl => exact List.mem_of_getElem? h.start
  | tail _ hx ih =>
    obtain ⟨x, hx, rfl⟩ := hx
    exact h.mem_of_symbol ih hx

/-! ### Runs -/

theorem silentTargets_eq (i : Nat) : d.silentTargets i = [] := by
  rw [silentTargets]
  cases hs : d.states[i]? with
  | none => rfl
  | some s =>
    obtain ⟨set, -, hstands⟩ := h.set_of_state hs
    exact hstands.silent

theorem closure_eq (sources : List Nat) : d.closure sources = d.numbers.filter (· ∈ sources) := by
  refine (d.inOrder_closure sources).ext (d.inOrder_filter _) fun j => ?_
  rw [mem_closure_iff_reach, List.mem_filter, numbers, List.mem_range, decide_eq_true_iff]
  refine and_congr_right fun _ => ⟨?_, fun hj => ⟨j, hj, .refl⟩⟩
  rintro ⟨i, hi, hreach⟩
  rcases hreach.cases_head with rfl | ⟨k, hk, -⟩
  · exact hi
  · rw [h.silentTargets_eq] at hk; cases hk

theorem closure_singleton (hi : sets[i]? = some set) : d.closure [i] = [i] := by
  rw [h.closure_eq, filter_numbers_singleton]
  exact h.size_eq ▸ (List.getElem?_eq_some_iff.mp hi).1

theorem move_of_mem (hi : sets[i]? = some set) (hx : x ∈ a.symbols set) (hne : x.isEmpty = false) :
    ∃ k, d.move x [i] = [k] ∧ sets[k]? = some (a.closure (a.move x set)) := by
  obtain ⟨s, hs, hstands⟩ := h.state_of_set hi
  rw [← hstands.symbols] at hx
  obtain ⟨ks, hmem, hlookup⟩ := State.lookup_of_mem hx
  obtain ⟨k, rfl, hk⟩ := hstands.moves _ hmem
  refine ⟨k, ?_, hk⟩
  have htargets : d.targets x i = [k] := by
    simp [targets, hs, State.targets, State.get?, State.hasMove_iff.mpr hx, hne, hlookup]
  rw [move, List.flatMap_singleton, htargets, filter_numbers_singleton]
  exact h.size_eq ▸ (List.getElem?_eq_some_iff.mp hk).1

theorem move_of_not_mem (hi : sets[i]? = some set) (hx : x ∉ a.symbols set) :
    d.move x [i] = [] := by
  obtain ⟨s, hs, hstands⟩ := h.state_of_set hi
  refine move_eq_nil fun hx' => hx ?_
  obtain ⟨j, hj, t, ht, hxt⟩ := mem_symbols.mp hx'
  rw [List.mem_singleton.mp hj, hs] at ht
  exact hstands.symbols ▸ Option.some.inj ht ▸ hxt

/-- Step by step, the result is in the one state that stands for the set of states in which the
automaton can be. -/
theorem run_eq (hlabels : ∀ s ∈ a.states, ∀ m ∈ s.moves, m.1.isEmpty = false)
    (hi : sets[i]? = some set) (w : List String) :
    (∃ j, d.run [i] w = [j] ∧ sets[j]? = some (a.run set w)) ∨ d.run [i] w = [] ∧
    a.run set w = [] := by
  induction w generalizing i set with
  | nil => exact .inl ⟨i, rfl, hi⟩
  | cons x w ih =>
    rw [run, run]
    by_cases hx : x ∈ a.symbols set
    · have hne : x.isEmpty = false := by
        obtain ⟨q, -, s, hs, hx⟩ := mem_symbols.mp hx
        obtain ⟨m, hm, rfl⟩ := List.mem_map.mp hx
        exact hlabels s (Array.mem_of_getElem? hs) m hm
      obtain ⟨k, hk, hget⟩ := h.move_of_mem hi hx hne
      rw [hk, h.closure_singleton hget]
      exact ih hget
    · rw [h.move_of_not_mem hi hx, move_eq_nil hx]
      exact .inr ⟨by simp, by simp⟩

theorem any_isFinal (hi : sets[i]? = some set) : [i].any d.isFinal = set.any a.isFinal := by
  obtain ⟨s, hs, hstands⟩ := h.state_of_set hi
  simp [isFinal, hs, hstands.final]

end Determinized

/-! ### The order in which the sets are found -/

/-- The sets that were found, and those of them that are still to be taken. -/
structure Work where
  found : List (List Nat)
  pending : List (List Nat)

namespace Work

def file (r : Work) (set : List Nat) : Work :=
  if set ∈ r.found then r else ⟨r.found ++ [set], r.pending ++ [set]⟩

/-- A turn in any order: one of the pending sets is taken, and what its symbols lead to is filed,
symbol by symbol. -/
inductive Turn (a : Automaton α) : Work → Work → Prop
  | take {found pending rest : List (List Nat)} {set : List Nat} {symbols : List String} :
      pending.Perm (set :: rest) → symbols.Perm (a.symbols set) →
      Turn a ⟨found, pending⟩ (symbols.foldl (fun r x => r.file (a.closure (a.move x set)))
        ⟨found, rest⟩)

/-- What is known as long as turns are taken: what a set leads to is found, unless the set is
pending. -/
structure Ongoing (a : Automaton α) (r : Work) : Prop where
  listed : a.Listed r.found
  start : a.closure [a.start] ∈ r.found
  pending : r.pending ⊆ r.found
  taken : ∀ set ∈ r.found, set ∉ r.pending → ∀ x ∈ a.symbols set, a.closure (a.move x set) ∈ r.found

theorem foldl_file {r : Work} {xs : List String} (hset : a.ReachedSet set)
    (hxs : xs ⊆ a.symbols set)
    (hlisted : a.Listed r.found) (hpending : r.pending ⊆ r.found) :
    let r' := xs.foldl (fun r x => r.file (a.closure (a.move x set))) r
    a.Listed r'.found ∧ r'.pending ⊆ r'.found ∧ r.found ⊆ r'.found ∧ r.pending ⊆ r'.pending ∧
      (∀ s ∈ r'.found, s ∈ r.found ∨ s ∈ r'.pending) ∧
        (∀ x ∈ xs, a.closure (a.move x set) ∈ r'.found) ∧
      r'.found.length + r.pending.length = r.found.length + r'.pending.length := by
  induction xs generalizing r with
  | nil => exact ⟨hlisted, hpending, fun _ h => h, fun _ h => h, fun _ h => .inl h, nofun, rfl⟩
  | cons x xs ih =>
    obtain ⟨hx, hxs⟩ := List.cons_subset.mp hxs
    rw [List.foldl_cons, file]
    split
    next hmem =>
      obtain ⟨h1, h2, h3, h4, h5, h6, h7⟩ := ih hxs hlisted hpending
      exact ⟨h1, h2, h3, h4, h5, List.forall_mem_cons.mpr ⟨h3 hmem, h6⟩, h7⟩
    next hnew =>
      obtain ⟨h1, h2, h3, h4, h5, h6, h7⟩ := ih (r := ⟨r.found ++ [_], r.pending ++ [_]⟩) hxs
        (hlisted.concat (hset.tail ⟨x, hx, rfl⟩) hnew) (List.append_subset.mpr
          ⟨fun s hs => List.mem_append_left _ (hpending hs), List.subset_append_right ..⟩)
      obtain ⟨h3, h3'⟩ := List.append_subset.mp h3
      obtain ⟨h4, h4'⟩ := List.append_subset.mp h4
      refine ⟨h1, h2, h3, h4, fun s hs => ?_, List.forall_mem_cons.mpr ⟨h3' (.head _), h6⟩, ?_⟩
      · rcases h5 s hs with hs | hs
        · exact (List.mem_append.mp hs).imp_right fun hs => h4' hs
        · exact .inr hs
      · simp only [List.length_append, List.length_singleton] at h7
        omega

theorem Ongoing.turn {r r' : Work} (h : Ongoing a r) (ht : Turn a r r') :
    Ongoing a r' ∧ r'.found.length + r.pending.length = r.found.length + r'.pending.length + 1 := by
  obtain @⟨found, pending, rest, set, symbols, hperm, hsymbols⟩ := ht
  have hset : set ∈ found := h.pending (hperm.mem_iff.mpr (.head _))
  have hrest : rest ⊆ found := fun s hs => h.pending (hperm.mem_iff.mpr (.tail _ hs))
  obtain ⟨hlisted, hpending, hfound, hkept, hnew, hleads, hlength⟩ :=
    foldl_file (r := ⟨found, rest⟩) (h.listed.reached set hset) hsymbols.subset h.listed hrest
  refine ⟨⟨hlisted, hfound h.start, hpending, fun s hs hnot x hx => ?_⟩, ?_⟩
  · have hs := (hnew s hs).resolve_right hnot
    by_cases he : s = set
    · exact he ▸ hleads x (hsymbols.mem_iff.mpr (he ▸ hx))
    · refine hfound (h.taken s hs (fun hmem => hnot (hkept ?_)) x hx)
      exact (List.mem_cons.mp (hperm.mem_iff.mp hmem)).resolve_left he
  · have := hperm.length_eq
    simp only [List.length_cons] at this hlength ⊢
    omega

end Work

/-- In whatever order the sets are taken and their symbols are tried, there is an end after so many
turns as sets are found, which are at most `2 ^ n`. The sets are those that the states of the result
stand for. -/
theorem found_perm {turns : Nat} {r : Nat → Work}
    (hfirst : r 0 = ⟨[a.closure [a.start]], [a.closure [a.start]]⟩)
    (hturn : ∀ n < turns, Work.Turn a (r n) (r (n + 1))) :
    turns ≤ 2 ^ a.states.size ∧
      ((r turns).pending = [] → (r turns).found.Perm
        (a.determinize.states.toList.map (·.label))) := by
  have hongoing : ∀ n ≤ turns, Work.Ongoing a (r n) ∧
      (r n).found.length = n + (r n).pending.length := by
    intro n hn
    induction n with
    | zero =>
      rw [hfirst]
      refine ⟨⟨a.listed_start, .head _, fun _ h => h, fun set hset hnot => absurd hset hnot⟩, ?_⟩
      exact (Nat.zero_add _).symm
    | succ n ih =>
      obtain ⟨h, hlength⟩ := ih (Nat.le_of_succ_le hn)
      obtain ⟨h', hlength'⟩ := h.turn (hturn n hn)
      exact ⟨h', by omega⟩
  obtain ⟨h, hlength⟩ := hongoing turns (Nat.le_refl _)
  have hle := length_le_of_inOrder h.listed.nodup h.listed.inOrder
  refine ⟨by omega, fun hend => ?_⟩
  obtain ⟨sets, hd, -⟩ := determinize_ok a
  rw [hd.labels_eq]
  refine (List.perm_ext_iff_of_nodup h.listed.nodup hd.listed.nodup).mpr fun set => ?_
  rw [hd.mem_iff_reached]
  refine ⟨h.listed.reached set, fun hset => ?_⟩
  induction hset with
  | refl => exact h.start
  | tail _ hx ih =>
    obtain ⟨x, hx, rfl⟩ := hx
    exact h.taken _ ih (by rw [hend]; exact List.not_mem_nil) x hx

/-- The construction ends, and it is right. Whatever can be reached in the result has no silent
moves and one destination for each symbol it has an entry for, and two states do not stand for the
same set. The states stand for the sets that are found in any order of taking sets and trying
symbols. A word leads to a state that stands for the states in which the automaton can be after the
word, so the two accept the same words. -/
theorem determinize_correct (a : Automaton α)
    (hlabels : ∀ s ∈ a.states, ∀ m ∈ s.moves, m.1.isEmpty = false) :
    (∀ n, 2 ^ a.states.size ≤ n →
      a.subsetStates n [a.closure [a.start]] 0 = a.determinize.states.toList) ∧
    (∀ i, a.determinize.Reachable i → ∃ s, a.determinize.states[i]? = some s ∧
      s.silent.targets = [] ∧ (s.moves.map (·.1)).Nodup ∧ ∀ m ∈ s.moves, ∃ j, m.2 = [j]) ∧
    (∀ i j s t, a.determinize.Reachable i → a.determinize.Reachable j →
      a.determinize.states[i]? = some s → a.determinize.states[j]? = some t →
      (∀ q, q ∈ s.label ↔ q ∈ t.label) → i = j) ∧
    (∀ (turns : Nat) (r : Nat → Work), r 0 = ⟨[a.closure [a.start]], [a.closure [a.start]]⟩ →
      (∀ n < turns, Work.Turn a (r n) (r (n + 1))) → turns ≤ 2 ^ a.states.size ∧
        ((r turns).pending = [] →
          (r turns).found.Perm (a.determinize.states.toList.map (·.label)))) ∧
    (∀ w, ∀ i ∈ a.determinize.run (a.determinize.closure [a.determinize.start]) w, ∃ s,
      a.determinize.states[i]? = some s ∧ s.label = a.run (a.closure [a.start]) w) ∧
    ∀ w, a.determinize.accepts w = a.accepts w := by
  obtain ⟨sets, h, hends⟩ := determinize_ok a
  have hrun := h.run_eq hlabels h.start
  have hstart := h.closure_singleton h.start
  refine ⟨hends, fun i hi => ?_, fun i j s t _ _ hs ht => h.eq_of_same_states hs ht,
    fun _ _ => found_perm, fun w i hi => ?_, fun w => ?_⟩
  · obtain ⟨set, s, -, hs, hstands⟩ := h.of_reachable hi
    refine ⟨s, hs, hstands.silent, hstands.symbols ▸ a.nodup_symbols set, fun m hm => ?_⟩
    obtain ⟨k, hk, -⟩ := hstands.moves m hm
    exact ⟨k, hk⟩
  · rw [hstart] at hi
    rcases hrun w with ⟨j, hj, hget⟩ | ⟨hnone, -⟩
    · rw [hj, List.mem_singleton] at hi
      obtain ⟨s, hs, hstands⟩ := h.state_of_set hget
      exact ⟨s, hi ▸ hs, hstands.label⟩
    · rw [hnone] at hi; cases hi
  · rw [accepts, accepts, acceptsFrom, acceptsFrom, hstart]
    rcases hrun w with ⟨j, hj, hget⟩ | ⟨hnone, hnone'⟩
    · rw [hj, h.any_isFinal hget]
    · rw [hnone, hnone']; rfl

end Automaton

/-! ### A silent cycle and a move without destinations -/

namespace Sample

/-- Three states: `0` and `1` lead silently to each other, `a` leads from `1` to `1` and `2`, and to
nowhere from `2`, which accepts. -/
def looping : Automaton Nat where
  states := #[
    { label := 0, final := false, silent := .fixed [1] },
    { label := 1, final := false, moves := [("a", [1, 2, 2])], silent := .fixed [0] },
    { label := 2, final := true, moves := [("a", []), ("b", [0])] }]
  start := 0

theorem looping_labels : ∀ s ∈ looping.states, ∀ m ∈ s.moves, m.1.isEmpty = false := by
  decide

theorem looping_accepts :
    looping.accepts ["a", "b", "a"] = true ∧ looping.accepts ["b"] = false := by
  decide +kernel

theorem determinize_correct_looping : looping.determinize.accepts ["a", "b", "a"] = true ∧
    looping.determinize.accepts ["b"] = false := by
  obtain ⟨-, -, -, -, -, hsame⟩ := Automaton.determinize_correct looping looping_labels
  rw [hsame, hsame]
  exact looping_accepts

end Sample

end AutoCool
