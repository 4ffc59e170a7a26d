import Mathlib.Data.Finset.Powerset
import AutoCool.Proofs.LR1.Closure

/-!
# The search for the item sets

The search files a kernel once, finds the moves of every state it has filed, and ends: the kernels
are different and there are only so many of them (`Setting.length_le_bound`). `Setting.Traces` says
what is known of an automaton that was found in this way. It moves over a symbol from an item set to
the closure of the items that are moved over it, and over nothing else. Moves are filed under names,
so symbols of one name share an entry; where names tell the symbols apart, an entry has one state
(`Setting.Traces.move`).
-/

namespace AutoCool.LR1.Setting

variable {ρ : Type} {t : Setting ρ} {g : Grammar ρ} {items : List Item} {s : Symbol}

/-- An item set: one item for each production and place, in ascending order, all within bounds. -/
structure ItemSet (t : Setting ρ) (items : List Item) : Prop where
  sorted : items.Pairwise Item.Before
  place : ∀ {i d : Nat}, Stands items i d → ∃ r : Rule ρ, t.rules[i]? = some r ∧
    d ≤ r.symbols.length
  ahead : ∀ {i d n : Nat}, Has items i d n → n < t.size

theorem ItemSet.eq_of_place (h : t.ItemSet items) (hx : x ∈ items) (hy : y ∈ items)
    (hrule : x.rule = y.rule) (hdot : x.dot = y.dot) : x = y := by
  let R : Item → Item → Prop := fun x y => x.rule ≠ y.rule ∨ x.dot ≠ y.dot
  have : Std.Symm R := ⟨fun _ _ => Or.imp Ne.symm Ne.symm⟩
  have hpair : items.Pairwise R := h.sorted.imp fun hlt => by
    unfold Item.Before at hlt
    simp only [R]
    omega
  by_contra hne
  exact (hpair.forall hx hy hne).elim (· hrule) (· hdot)

/-! ### Closing and moving -/

theorem Exact.itemSet_closure (ht : t.Exact g)
    (hplace : ∀ {i d}, Stands items i d → ∃ r : Rule ρ, t.rules[i]? = some r ∧ d ≤ r.symbols.length)
    (hahead : ∀ {i d n}, Has items i d n → n < t.size) :
    t.ItemSet (closure t.rules t.edges t.size items) where
  sorted := Item.pairwise_sort _
  place hs := by
    rcases ht.stands_closure hs with hs | ⟨rfl, r, hr, -⟩
    · exact hplace hs
    · exact ⟨r, hr, Nat.zero_le _⟩
  ahead hn := ht.closes_lt hahead ((ht.has_closure hahead).mp hn)

theorem mem_kernel {rules : Array (Rule ρ)} {x : Item} :
    x ∈ kernel rules items s ↔ ∃ y ∈ items, x = y.advance ∧ ∃ r : Rule ρ, rules[y.rule]? = some r ∧
    r.next? y.dot = some s := by
  simp only [kernel, List.mem_map, List.mem_filter, beq_iff_eq, Option.bind_eq_some_iff]
  constructor
  · rintro ⟨y, ⟨hy, hr⟩, rfl⟩
    exact ⟨y, hy, rfl, hr⟩
  · rintro ⟨y, hy, rfl, hr⟩
    exact ⟨y, ⟨hy, hr⟩, rfl⟩

theorem ItemSet.kernel (h : t.ItemSet items) (s : Symbol) : t.ItemSet (kernel t.rules items s) where
  sorted := by
    refine List.pairwise_map.mpr ((h.sorted.filter _).imp fun hlt => ?_)
    unfold Item.Before Item.advance at *
    simpa using hlt
  place := by
    rintro i d ⟨x, hx, rfl, rfl⟩
    obtain ⟨y, -, rfl, r, hr, hs⟩ := mem_kernel.mp hx
    exact ⟨r, hr, (List.getElem?_eq_some_iff.mp hs).1⟩
  ahead := by
    rintro i d n ⟨x, hx, rfl, rfl, hn⟩
    obtain ⟨y, hy, rfl, -⟩ := mem_kernel.mp hx
    exact h.ahead ⟨y, hy, rfl, rfl, hn⟩

/-! ### The number of item sets -/

/-- The cells that an item set can fill: an item stands at a place with a lookahead, or, in the last
column, at all. -/
def cells (t : Setting ρ) : List (Nat × Nat × Nat) :=
  t.rules.toList.zipIdx.flatMap fun (r, i) =>
    (List.range (r.symbols.length + 1) ×ˢ List.range (t.size + 1)).map (i, ·)

theorem length_cells (t : Setting ρ) : t.cells.length =
    (t.size + 1) * (t.rules.toList.map (·.symbols.length + 1)).foldr (· + ·) 0 := by
  unfold cells
  suffices ∀ k, ((t.rules.toList.zipIdx k).flatMap fun (r, i) =>
      (List.range (r.symbols.length + 1) ×ˢ List.range (t.size + 1)).map (i, ·)).length =
      (t.size + 1) * (t.rules.toList.map (·.symbols.length + 1)).foldr (· + ·) 0 from this 0
  induction t.rules.toList with
  | nil => simp
  | cons r rules ih =>
    intro k
    simp only [List.zipIdx_cons, List.flatMap_cons, List.length_append, ih, List.length_map,
      List.length_product, List.length_range, List.map_cons, List.foldr_cons]
    rw [Nat.mul_comm (r.symbols.length + 1) (t.size + 1), ← Nat.mul_add]

theorem mem_cells : (i, d, n) ∈ t.cells ↔
    (∃ r : Rule ρ, t.rules[i]? = some r ∧ d ≤ r.symbols.length) ∧ n ≤ t.size := by
  simp only [cells, List.mem_flatMap, List.mem_map, Prod.exists, List.mem_zipIdx_iff_getElem?,
    Array.getElem?_toList, List.mem_product, List.mem_range, Prod.mk.injEq, Nat.lt_succ_iff]
  constructor
  · rintro ⟨r, i, hr, d, n, ⟨hd, hn⟩, rfl, rfl, rfl⟩
    exact ⟨⟨r, hr, hd⟩, hn⟩
  · rintro ⟨⟨r, hr, hd⟩, hn⟩
    exact ⟨r, i, hr, d, n, ⟨hd, hn⟩, rfl, rfl, rfl⟩

open Classical in
/-- The cells that an item set fills. -/
noncomputable def filled (t : Setting ρ) (items : List Item) : Finset (Nat × Nat × Nat) :=
  t.cells.toFinset.filter fun c => Stands items c.1 c.2.1 ∧
    (c.2.2 = t.size ∨ Has items c.1 c.2.1 c.2.2)

theorem ItemSet.mem_filled (h : t.ItemSet items) : (i, d, n) ∈ t.filled items ↔
    Stands items i d ∧ (n = t.size ∨ Has items i d n) := by
  simp only [filled, Finset.mem_filter, List.mem_toFinset, mem_cells]
  refine and_iff_right_of_imp fun ⟨hs, hn⟩ => ⟨h.place hs, ?_⟩
  rcases hn with rfl | hn
  · exact Nat.le_refl _
  · exact Nat.le_of_lt (h.ahead hn)

theorem ItemSet.subset_of_filled (h : t.ItemSet items) (h' : t.ItemSet items')
    (heq : t.filled items = t.filled items') : ∀ x ∈ items, x ∈ items' := by
  intro x hx
  have hcell : (x.rule, x.dot, t.size) ∈ t.filled items' :=
    heq ▸ h.mem_filled.mpr ⟨⟨x, hx, rfl, rfl⟩, .inl rfl⟩
  obtain ⟨⟨y, hy, hrule, hdot⟩, -⟩ := h'.mem_filled.mp hcell
  -- the item that stands at the place of `x` has the lookaheads of `x`
  have hahead : ∀ n, x.ahead.contains n = true ↔ y.ahead.contains n = true := by
    intro n
    have hx' : x.ahead.contains n = true ↔ Has items x.rule x.dot n :=
      ⟨fun hn => ⟨x, hx, rfl, rfl, hn⟩, fun ⟨z, hz, hzr, hzd, hn⟩ =>
        h.eq_of_place hz hx hzr hzd ▸ hn⟩
    have hy' : y.ahead.contains n = true ↔ Has items' x.rule x.dot n :=
      ⟨fun hn => ⟨y, hy, hrule, hdot, hn⟩, fun ⟨z, hz, hzr, hzd, hn⟩ =>
        h'.eq_of_place hz hy (hzr.trans hrule.symm) (hzd.trans hdot.symm) ▸ hn⟩
    rw [hx', hy']
    constructor
    · intro hn
      have := h'.mem_filled.mp (heq ▸ h.mem_filled.mpr ⟨hn.stands, .inr hn⟩)
      exact this.2.resolve_left (Nat.ne_of_lt (h.ahead hn))
    · intro hn
      have := h.mem_filled.mp (heq ▸ h'.mem_filled.mpr ⟨hn.stands, .inr hn⟩)
      exact this.2.resolve_left (Nat.ne_of_lt (h'.ahead hn))
  have : x = y := by
    cases x; cases y
    simp only [Item.mk.injEq]
    exact ⟨hrule.symm, hdot.symm, BitSet.ext fun n => Bool.eq_iff_iff.mpr (hahead n)⟩
  exact this ▸ hy

theorem ItemSet.nodup (h : t.ItemSet items) : items.Nodup :=
  h.sorted.imp fun hlt he => by subst he; unfold Item.Before at hlt; omega

theorem ItemSet.eq_of_filled (h : t.ItemSet items) (h' : t.ItemSet items')
    (heq : t.filled items = t.filled items') : items = items' := by
  have hperm : items.Perm items' := (List.perm_ext_iff_of_nodup h.nodup h'.nodup).mpr fun x =>
    ⟨h.subset_of_filled h' heq x, h'.subset_of_filled h heq.symm x⟩
  refine hperm.eq_of_pairwise (fun x y _ _ hxy hyx => ?_) h.sorted h'.sorted
  unfold Item.Before at hxy hyx; omega

theorem length_le_bound {sets : List (List Item)} (hnodup : sets.Nodup)
    (hsets : ∀ k ∈ sets, t.ItemSet k) : sets.length ≤ t.bound := by
  classical
  have hcard : sets.toFinset.card ≤ t.cells.toFinset.powerset.card := by
    refine Finset.card_le_card_of_injOn t.filled (fun k _ => ?_) fun k hk k' hk' heq => ?_
    · exact Finset.mem_powerset.mpr (Finset.filter_subset _ _)
    · rw [List.coe_toFinset] at hk hk'
      exact (hsets k hk).eq_of_filled (hsets k' hk') heq
  rw [List.toFinset_card_of_nodup hnodup, Finset.card_powerset] at hcard
  refine hcard.trans ?_
  rw [bound, ← length_cells]
  exact Nat.pow_le_pow_right (by decide) (List.toFinset_card_le _)

/-! ### What the search knows -/

/-- The symbol stands in a right side. -/
def Occurs (t : Setting ρ) (s : Symbol) : Prop :=
  ∃ (i : Nat) (r : Rule ρ), t.rules[i]? = some r ∧ s ∈ r.symbols

theorem occurs_of_kernel (h : kernel t.rules items s ≠ []) : t.Occurs s := by
  obtain ⟨x, hx⟩ := List.exists_mem_of_ne_nil _ h
  obtain ⟨y, -, -, r, hr, hs⟩ := mem_kernel.mp hx
  exact ⟨y.rule, r, hr, List.mem_of_getElem? hs⟩

/-- The symbols are tried one after the other, each once, and those that can stand in a right side
are told apart by their names. -/
structure Named (t : Setting ρ) : Prop where
  nodup : t.symbols.Nodup
  mem : ∀ {s}, t.Occurs s → s ∈ t.symbols
  inj : ∀ {s s'}, t.Occurs s → t.Occurs s' → s.name = s'.name → s = s'

/-- The kernels that were filed are different item sets, and the states are their closures. -/
structure Filed (t : Setting ρ) (f : Search) : Prop where
  size_eq : f.states.size = f.kernels.size
  nodup : f.kernels.toList.Nodup
  itemSet : ∀ {i : Nat} {k}, f.kernels[i]? = some k → t.ItemSet k
  label : ∀ {i : Nat} {k q}, f.kernels[i]? = some k → f.states[i]? = some q →
    q.label = closure t.rules t.edges t.size k

/-- The symbols of one name that some items can be moved over, in the order in which they are
tried. -/
def movers (t : Setting ρ) (items : List Item) (name : String) (tried : List Symbol) :
    List Symbol :=
  tried.filter fun s => s.name == name && !(kernel t.rules items s).isEmpty

theorem mem_movers : s ∈ t.movers items name tried ↔ s ∈ tried ∧ s.name = name ∧
    kernel t.rules items s ≠ [] := by
  simp [movers]

theorem movers_concat (items : List Item) (name : String) (tried : List Symbol) (s : Symbol) :
    t.movers items name (tried ++ [s]) = t.movers items name tried ++ t.movers items name [s] :=
      List.filter_append ..

/-- The moves of a state over the symbols that were tried: under every name, the states of the
kernels for the symbols of that name that have one. -/
def Moves (t : Setting ρ) (f : Search) (i : Nat) (tried : List Symbol) : Prop :=
  ∀ q, f.states[i]? = some q → ∀ name, q.moves.lookup name ≠ some [] ∧
    List.Forall₂ (fun s j => f.kernels[j]? = some (kernel t.rules q.label s))
      (t.movers q.label name tried)
      ((q.moves.lookup name).getD [])

/-- The search later on: it knows the kernels it knew before, and a kernel that was filed since is
pending or was dealt with. -/
structure Extends (f f' : Search) : Prop where
  kernel : ∀ {i : Nat} {k}, f.kernels[i]? = some k → f'.kernels[i]? = some k
  count : f'.kernels.size + f.pending.length = f.kernels.size + f'.pending.length

theorem Extends.refl (f : Search) : Extends f f := ⟨id, rfl⟩

theorem Extends.trans (h : Extends f f') (h' : Extends f' f'') : Extends f f'' :=
  ⟨fun hk => h'.kernel (h.kernel hk), by have := h.count; have := h'.count; omega⟩

variable {f f' : Search} {i c : Nat} {tried : List Symbol} {k : List Item}

theorem Moves.extend (h : t.Moves f i tried) (hext : Extends f f')
    (hstate : f'.states[i]? = f.states[i]?) : t.Moves f' i tried := by
  intro q hq name
  obtain ⟨hne, hmoves⟩ := h q (hstate ▸ hq) name
  exact ⟨hne, hmoves.imp fun _ _ => hext.kernel⟩

/-- The search while the moves of one state are found: those of the pending states are still to be
found, and those of all others are complete. -/
structure Inv (t : Setting ρ) (f : Search) (c : Nat) (tried : List Symbol) :
    Prop extends Filed t f where
  pending_lt : ∀ i ∈ f.pending, i < f.kernels.size
  pending_nodup : f.pending.Nodup
  current : c ∉ f.pending
  current_lt : c < f.kernels.size
  pending_moves : ∀ i ∈ f.pending, t.Moves f i []
  current_moves : t.Moves f c tried
  other_moves : ∀ i, i ∉ f.pending → i ≠ c → t.Moves f i t.symbols

/-- The search once a kernel got the next number and is pending. -/
def added (t : Setting ρ) (k : List Item) (f : Search) : Search where
  kernels := f.kernels.push k
  states := f.states.push (t.stateOf k)
  pending := f.kernels.size :: f.pending

theorem file_cases (t : Setting ρ) (k : List Item) (f : Search) :
    (∃ n, t.file k f = (n, f) ∧ f.kernels[n]? = some k) ∨
      k ∉ f.kernels ∧ t.file k f = (f.kernels.size, t.added k f) := by
  unfold file
  cases h : f.kernels.findIdx? (· == k) with
  | some n =>
    obtain ⟨hn, heq, -⟩ := Array.findIdx?_eq_some_iff_getElem.mp h
    exact .inl ⟨n, rfl, Array.getElem?_eq_some_iff.mpr ⟨hn, eq_of_beq heq⟩⟩
  | none =>
    refine .inr ⟨fun hk => ?_, rfl⟩
    have := Array.findIdx?_eq_none_iff.mp h k hk
    simp at this

theorem extends_added (t : Setting ρ) (k : List Item) (f : Search) : Extends f (t.added k f) where
  kernel {i k'} hi := by
    rw [added, Array.getElem?_push, if_neg (Nat.ne_of_lt (Array.getElem?_eq_some_iff.mp hi).1), hi]
  count := by
    simp only [added, Array.size_push, List.length_cons]
    omega

theorem Filed.states_added (h : t.Filed f) (hi : i ≠ f.kernels.size) :
    (t.added k f).states[i]? = f.states[i]? := by
  rw [added, Array.getElem?_push, h.size_eq, if_neg hi]

theorem Filed.states_added_last (h : t.Filed f) :
    (t.added k f).states[f.kernels.size]? = some (t.stateOf k) := by
  rw [added, Array.getElem?_push, h.size_eq, if_pos rfl]

theorem Filed.added (h : t.Filed f) (hk : t.ItemSet k) (hnew : k ∉ f.kernels) :
    t.Filed (t.added k f) where
  size_eq := by simp only [Setting.added, Array.size_push, h.size_eq]
  nodup := by
    rw [Setting.added, Array.toList_push]
    refine List.nodup_append.mpr ⟨h.nodup, List.nodup_singleton k, fun a ha b hb he => hnew ?_⟩
    rw [← List.mem_singleton.mp hb, ← he]
    exact Array.mem_toList_iff.mp ha
  itemSet {i k'} hi := by
    rw [Setting.added, Array.getElem?_push] at hi
    split at hi
    · exact Option.some.inj hi ▸ hk
    · exact h.itemSet hi
  label {i k' q} hi hq := by
    rw [Setting.added, Array.getElem?_push] at hi
    split at hi
    next hlast =>
      obtain rfl := Option.some.inj hi
      rw [hlast, h.states_added_last] at hq
      exact Option.some.inj hq ▸ rfl
    next hlast => exact h.label hi (h.states_added hlast ▸ hq)

/-! ### Finding the moves of a state -/

theorem Moves.of_moves_nil {q : State (List Item)} (hq : f.states[i]? = some q)
    (hmoves : q.moves = []) : t.Moves f i [] := by
  intro q' hq' name
  cases hq.symm.trans hq'
  rw [hmoves]
  exact ⟨nofun, .nil⟩

theorem Inv.added (h : t.Inv f c tried) (hk : t.ItemSet k) (hnew : k ∉ f.kernels) :
    t.Inv (t.added k f) c tried := by
  have hext := t.extends_added k f
  have hc : c ≠ f.kernels.size := Nat.ne_of_lt h.current_lt
  have hlt : ∀ {i}, i < f.kernels.size → i < (t.added k f).kernels.size := fun hi => by
    rw [Setting.added, Array.size_push]
    exact Nat.lt_succ_of_lt hi
  refine { h.toFiled.added hk hnew with
    pending_lt := ?_, pending_nodup := ?_, current := ?_, current_lt := hlt h.current_lt
    pending_moves := ?_, current_moves :=
      h.current_moves.extend hext (h.states_added hc), other_moves := ?_ }
  · intro i hi
    rcases List.mem_cons.mp hi with rfl | hi
    · exact Array.size_push _ ▸ Nat.lt_succ_self _
    · exact hlt (h.pending_lt i hi)
  · exact List.nodup_cons.mpr ⟨fun hmem => Nat.lt_irrefl _ (h.pending_lt _ hmem), h.pending_nodup⟩
  · exact fun hmem => (List.mem_cons.mp hmem).elim hc h.current
  · intro i hi
    rcases List.mem_cons.mp hi with rfl | hi
    · exact .of_moves_nil h.states_added_last rfl
    · exact (h.pending_moves i hi).extend hext (h.states_added (Nat.ne_of_lt (h.pending_lt i hi)))
  · intro i hi hne
    obtain ⟨hlast, hi⟩ := not_or.mp (mt List.mem_cons.mpr hi)
    exact (h.other_moves i hi hne).extend hext (h.states_added hlast)

theorem Inv.file (h : t.Inv f c tried) (hk : t.ItemSet k) :
    ∃ n f1, t.file k f = (n, f1) ∧ t.Inv f1 c tried ∧ Extends f f1 ∧ f1.kernels[n]? = some k ∧
      f1.states[c]? = f.states[c]? := by
  obtain ⟨n, heq, hn⟩ | ⟨hnew, heq⟩ := t.file_cases k f
  · exact ⟨n, f, heq, h, .refl f, hn, rfl⟩
  · refine ⟨_, _, heq, h.added hk hnew, t.extends_added k f, ?_,
      h.states_added (Nat.ne_of_lt h.current_lt)⟩
    rw [Setting.added, Array.getElem?_push, if_pos rfl]

theorem hasMove_iff {q : State (List Item)} :
    q.hasMove name = true ↔ ∃ js, q.moves.lookup name = some js := by
  rw [← Option.isSome_iff_exists, State.hasMove]
  induction q.moves with
  | nil => simp
  | cons e l ih =>
    rw [List.any_cons, List.lookup_cons, BEq.comm]
    cases name == e.1 with
    | true => simp
    | false => exact ih

theorem lookup_addMove (q : State (List Item)) (name name' : String) (n : Nat) :
    (q.addMove name n).moves.lookup name' = if name' =
      name then some ((q.moves.lookup name).getD [] ++ [n]) else q.moves.lookup name' := by
  have hentry (f : String × List Nat → String × List Nat)
      (hf : ∀ x ts, f (x, ts) = if x == name then (x, ts ++ [n]) else (x, ts))
        (l : List (String × List Nat)) :
      (l.map f).lookup name' =
        if name' = name then (l.lookup name).map (· ++ [n]) else l.lookup name' := by
    induction l with
    | nil => simp
    | cons e l ih =>
      obtain ⟨x, ts⟩ := e
      rw [List.map_cons, hf, List.lookup_cons, List.lookup_cons, List.lookup_cons]
      by_cases hn : name' = x
      · subst hn
        by_cases hx : name' = name <;> simp [hx]
      · by_cases hx : x = name
        · subst hx
          simpa [hn, beq_false_of_ne hn] using ih
        · simpa [hx, beq_false_of_ne hn, beq_false_of_ne (Ne.symm hx)] using ih
  rw [State.addMove]
  cases hmove : q.hasMove name with
  | true =>
    obtain ⟨js, hjs⟩ := hasMove_iff.mp hmove
    rw [if_pos rfl, hentry _ fun _ _ => rfl, hjs]
    rfl
  | false =>
    have hnone : q.moves.lookup name = none := by
      rw [Option.eq_none_iff_forall_ne_some]
      intro js hjs
      rw [hasMove_iff.mpr ⟨js, hjs⟩] at hmove
      cases hmove
    rw [if_neg (by simp)]
    by_cases hn : name' = name
    · subst hn
      simp [List.lookup_append, hnone]
    · have hlast : List.lookup name' [(name, [n])] = none := by
        rw [List.lookup_cons, beq_false_of_ne hn]
        rfl
      rw [if_neg hn, List.lookup_append, hlast, Option.or_none]

theorem label_addMove (q : State (List Item)) (name : String) (n : Nat) :
    (q.addMove name n).label = q.label := by
  unfold State.addMove
  split <;> rfl

theorem Moves.concat (h : t.Moves f c tried) {q : State (List Item)} (hq : f.states[c]? = some q)
    (hk : kernel t.rules q.label s ≠ []) (hn : f.kernels[n]? = some (kernel t.rules q.label s))
    (hkernels : f'.kernels = f.kernels) (hq' : f'.states[c]? = some (q.addMove s.name n)) :
    t.Moves f' c (tried ++ [s]) := by
  intro q' hq'' name
  cases hq'.symm.trans hq''
  obtain ⟨hne, hmoves⟩ := h q hq name
  rw [lookup_addMove, label_addMove, hkernels, movers_concat]
  by_cases hname : name = s.name
  · subst hname
    have hlast : t.movers q.label s.name [s] = [s] := List.filter_eq_self.mpr (by simpa using hk)
    rw [if_pos rfl, hlast]
    exact ⟨by simp, List.rel_append hmoves (.cons hn .nil)⟩
  · have hlast : t.movers q.label name [s] = [] :=
      List.filter_eq_nil_iff.mpr (by simp [Ne.symm hname])
    rw [if_neg hname, hlast, List.append_nil]
    exact ⟨hne, hmoves⟩

theorem Inv.addMove (h : t.Inv f c tried) {q : State (List Item)} (hq : f.states[c]? = some q)
    (hk : kernel t.rules q.label s ≠ []) (hn : f.kernels[n]? = some (kernel t.rules q.label s)) :
    t.Inv { f with states := f.states.modify c (·.addMove s.name n) } c (tried ++ [s]) := by
  have hother : ∀ {i : Nat}, i ≠ c →
      (f.states.modify c (·.addMove s.name n))[i]? = f.states[i]? := fun hi => by
    rw [Array.getElem?_modify, if_neg (Ne.symm hi)]
  have hself : (f.states.modify c (·.addMove s.name n))[c]? = some (q.addMove s.name n) := by
    rw [Array.getElem?_modify, if_pos rfl, hq]
    rfl
  have hext : Extends f { f with states := f.states.modify c (·.addMove s.name n) } := ⟨id, rfl⟩
  refine { h with
    size_eq := ?_, label := ?_, pending_moves := ?_
    current_moves := h.current_moves.concat hq hk hn rfl hself, other_moves := ?_ }
  · rw [Array.size_modify, h.size_eq]
  · intro i k q' hi hq'
    by_cases hic : i = c
    · subst hic
      cases hself.symm.trans hq'
      rw [label_addMove]
      exact h.label (q := q) hi hq
    · exact h.label hi (hother hic ▸ hq')
  · intro i hi
    exact (h.pending_moves i hi).extend hext (hother fun he => h.current (he ▸ hi))
  · intro i hi hne
    exact (h.other_moves i hi hne).extend hext (hother hne)

theorem tryMove_of_ne (f : Search) (c : Nat) (h : kernel t.rules items s ≠ []) :
    t.tryMove c items f s =
      { (t.file (kernel t.rules items s) f).2 with
        states := (t.file (kernel t.rules items s) f).2.states.modify c
          (·.addMove s.name (t.file (kernel t.rules items s) f).1) } := by
  rw [tryMove]
  split
  · exact absurd ‹_› h
  · rfl

theorem Filed.itemSet_label (ht : t.Exact g) (h : t.Filed f) {q : State (List Item)}
    (hq : f.states[i]? = some q) : t.ItemSet q.label := by
  have hi : i < f.kernels.size := h.size_eq ▸ (Array.getElem?_eq_some_iff.mp hq).1
  rw [h.label (Array.getElem?_eq_getElem hi) hq]
  have hk := h.itemSet (Array.getElem?_eq_getElem hi)
  exact ht.itemSet_closure hk.place hk.ahead

theorem Inv.tryMove (ht : t.Exact g) (h : t.Inv f c tried) {q : State (List Item)}
    (hq : f.states[c]? = some q) (s : Symbol) :
    t.Inv (t.tryMove c q.label f s) c (tried ++ [s]) ∧ Extends f (t.tryMove c q.label f s) ∧
      ∃ q', (t.tryMove c q.label f s).states[c]? = some q' ∧ q'.label = q.label := by
  by_cases hk : kernel t.rules q.label s = []
  · have heq : t.tryMove c q.label f s = f := by rw [Setting.tryMove, hk]
    rw [heq]
    refine ⟨{ h with current_moves := ?_ }, .refl f, q, hq, rfl⟩
    intro q' hq' name
    cases hq.symm.trans hq'
    have hlast : t.movers q.label name [s] = [] := List.filter_eq_nil_iff.mpr (by simp [hk])
    rw [movers_concat, hlast, List.append_nil]
    exact h.current_moves q hq name
  · obtain ⟨n, f1, heq, h1, hext, hn, hstate⟩ := h.file ((h.itemSet_label ht hq).kernel s)
    have hq1 : f1.states[c]? = some q := hstate.trans hq
    have htry := tryMove_of_ne f c hk
    simp only [heq] at htry
    rw [htry]
    refine ⟨h1.addMove hq1 hk hn, hext.trans ⟨id, rfl⟩, q.addMove s.name n, ?_, label_addMove ..⟩
    rw [Array.getElem?_modify, if_pos rfl, hq1]; rfl

theorem Inv.foldl_tryMove (ht : t.Exact g) (items : List Item) (rest : List Symbol)
    (h : t.Inv f c tried) (hq : ∃ q, f.states[c]? = some q ∧ q.label = items)
    (hsplit : tried ++ rest = t.symbols) :
    t.Inv (rest.foldl (t.tryMove c items) f) c t.symbols ∧
    Extends f (rest.foldl (t.tryMove c items) f) := by
  induction rest generalizing f tried with
  | nil =>
    rw [List.append_nil] at hsplit
    exact ⟨hsplit ▸ h, .refl f⟩
  | cons s rest ih =>
    obtain ⟨q, hq, rfl⟩ := hq
    obtain ⟨h1, hext1, hq1⟩ := h.tryMove ht hq s
    obtain ⟨h2, hext2⟩ := ih h1 hq1 (by rw [List.append_assoc]; exact hsplit)
    exact ⟨h2, hext1.trans hext2⟩

/-- What is filed while the moves of a state are found is a kernel of its items. -/
theorem mem_kernels_tryMove (h : k ∈ (t.tryMove c items f s).kernels) :
    k ∈ f.kernels ∨ k = kernel t.rules items s ∧ k ≠ [] := by
  by_cases hk : kernel t.rules items s = []
  · rw [Setting.tryMove, hk] at h
    exact .inl h
  · rw [tryMove_of_ne f c hk] at h
    obtain ⟨n, heq, -⟩ | ⟨-, heq⟩ := t.file_cases (kernel t.rules items s) f
    · rw [heq] at h
      exact .inl h
    · rw [heq] at h
      exact (Array.mem_push.mp h).imp_right fun he => ⟨he, he ▸ hk⟩

theorem kernels_foldl_tryMove {P : List Item → Prop} (h : ∀ k ∈ f.kernels, P k)
    (hP : ∀ s, kernel t.rules items s ≠ [] → P (kernel t.rules items s)) (ss : List Symbol) :
    ∀ k ∈ (ss.foldl (t.tryMove c items) f).kernels, P k := by
  induction ss generalizing f with
  | nil => exact h
  | cons s ss ih =>
    refine ih fun k hk => ?_
    rcases mem_kernels_tryMove hk with hk | ⟨rfl, hne⟩
    · exact h k hk
    · exact hP s hne

/-! ### The whole search -/

/-- The search between two states: the moves of all states but the pending ones are complete. -/
structure Settled (t : Setting ρ) (f : Search) : Prop extends Filed t f where
  pending_lt : ∀ i ∈ f.pending, i < f.kernels.size
  pending_nodup : f.pending.Nodup
  pending_moves : ∀ i ∈ f.pending, t.Moves f i []
  other_moves : ∀ i, i ∉ f.pending → t.Moves f i t.symbols

theorem Inv.settled (h : t.Inv f c t.symbols) : t.Settled f := by
  refine { h with other_moves := fun i hi => ?_ }
  by_cases hic : i = c
  · exact hic ▸ h.current_moves
  · exact h.other_moves i hi hic

theorem Settled.pop (h : t.Settled f) (hpending : f.pending = c :: rest) :
    t.Inv { f with pending := rest } c [] := by
  have hnodup := hpending ▸ h.pending_nodup
  have hmem : ∀ {i}, i ∈ rest → i ∈ f.pending := fun hi => hpending ▸ .tail c hi
  have hcmem : c ∈ f.pending := hpending ▸ (.head _)
  refine ⟨⟨h.size_eq, h.nodup, h.itemSet, h.label⟩, fun i hi => h.pending_lt i (hmem hi),
    (List.nodup_cons.mp hnodup).2, (List.nodup_cons.mp hnodup).1, h.pending_lt c hcmem,
      fun i hi => ?_, ?_,
    fun i hi hne => ?_⟩
  · exact h.pending_moves i (hmem hi)
  · exact h.pending_moves c hcmem
  · exact h.other_moves i fun hm => (List.mem_cons.mp (hpending ▸ hm)).elim hne hi

theorem Settled.length_le (h : t.Settled f) : f.pending.length ≤ f.kernels.size := by
  rw [← List.length_range (n := f.kernels.size)]
  exact (List.subperm_of_subset h.pending_nodup fun i hi =>
    List.mem_range.mpr (h.pending_lt i hi)).length_le

theorem Settled.size_le (h : t.Settled f) : f.kernels.size ≤ t.bound := by
  rw [← Array.length_toList]
  refine length_le_bound h.nodup fun k hk => ?_
  obtain ⟨i, hi⟩ := List.mem_iff_getElem?.mp hk
  exact h.itemSet (Array.getElem?_toList ▸ hi)

/-- The search deals with one state after the other until none is pending. What a kernel passes on
to the kernels of its closure holds of all that are filed. -/
theorem Settled.explore (ht : t.Exact g) {P : List Item → Prop}
    (hP : ∀ k s, P k → kernel t.rules (closure t.rules t.edges t.size k) s ≠ [] →
      P (kernel t.rules (closure t.rules t.edges t.size k) s))
    (fuel : Nat) (h : t.Settled f) (hkernels : ∀ k ∈ f.kernels, P k)
    (hfuel : t.bound + f.pending.length ≤ fuel + f.kernels.size) :
    t.Settled (t.explore fuel f) ∧ (t.explore fuel f).pending = [] ∧
      (∀ k ∈ (t.explore fuel f).kernels, P k) ∧
      ∀ {i : Nat} {k}, f.kernels[i]? = some k → (t.explore fuel f).kernels[i]? = some k := by
  induction fuel generalizing f with
  | zero =>
    have := h.size_le
    have := h.length_le
    rw [Setting.explore]
    exact ⟨h, List.length_eq_zero_iff.mp (by omega), hkernels, id⟩
  | succ fuel ih =>
    rw [Setting.explore]
    split
    · exact ⟨h, ‹_›, hkernels, id⟩
    · rename_i c rest hpending
      have hinv := h.pop hpending
      have hc : c < f.states.size := h.size_eq ▸ hinv.current_lt
      have hq : f.states[c]? = some f.states[c] := Array.getElem?_eq_getElem hc
      obtain ⟨k, hk⟩ : ∃ k, f.kernels[c]? = some k := ⟨_, Array.getElem?_eq_getElem hinv.current_lt⟩
      have hlabel : ((f.states[c]?).map (·.label)).getD [] = closure t.rules t.edges t.size k := by
        rw [hq]
        exact h.label hk hq
      obtain ⟨hinv', hext⟩ := hinv.foldl_tryMove ht (((f.states[c]?).map (·.label)).getD [])
        t.symbols ⟨_, hq, by rw [hq]; rfl⟩ rfl
      have hcount := hext.count
      have hlen : f.pending.length = rest.length + 1 := by rw [hpending]; rfl
      simp only at hcount
      obtain ⟨h', hnil, hall, hkernel⟩ := ih hinv'.settled
        (kernels_foldl_tryMove (f := { f with pending := rest }) hkernels
          (hlabel ▸ fun s => hP k s (hkernels k (Array.mem_of_getElem? hk))) t.symbols)
        (by omega)
      exact ⟨h', hnil, hall, fun hk => hkernel (hext.kernel hk)⟩

/-- The item sets that are reached from a kernel: its closure, and with an item set the closures of
its kernels. -/
inductive Reached (t : Setting ρ) (kernel₀ : List Item) : List Item → Prop
  | start : Reached t kernel₀ (closure t.rules t.edges t.size kernel₀)
  | move {items : List Item} {s : Symbol} : Reached t kernel₀ items → kernel t.rules items s ≠ [] →
    Reached t kernel₀ (closure t.rules t.edges t.size (kernel t.rules items s))

/-- An automaton of item sets. It starts with the closure of a given kernel and has only item sets
that are reached from it. Under a name it moves from an item set to the closures of its kernels for
the symbols of that name, and it has no entry when there are none. -/
structure Traces (t : Setting ρ) (a : Automaton (List Item)) (kernel₀ : List Item) : Prop where
  start : ∃ q, a.states[a.start]? = some q ∧ q.label = closure t.rules t.edges t.size kernel₀
  reached : ∀ {i : Nat} {q}, a.states[i]? = some q → t.Reached kernel₀ q.label
  itemSet : ∀ {i : Nat} {q}, a.states[i]? = some q → t.ItemSet q.label
  moves : ∀ {i : Nat} {q}, a.states[i]? = some q → ∀ name, q.moves.lookup name ≠ some [] ∧
    List.Forall₂ (fun s j => ∃ q', a.states[j]? = some q' ∧
      q'.label = closure t.rules t.edges t.size (kernel t.rules q.label s))
        (t.movers q.label name t.symbols)
      ((q.moves.lookup name).getD [])

section Traces

variable {a : Automaton (List Item)} {kernel₀ : List Item} {q : State (List Item)}

/-- Where a state goes first under a name: to the closure of the kernel for the first symbol of that
name that has one. -/
theorem Traces.head_move (h : t.Traces a kernel₀) (hq : a.states[i]? = some q)
    (hj : (q.moves.lookup name).bind (·.head?) = some j) :
    ∃ s q', (t.movers q.label name t.symbols).head? = some s ∧ a.states[j]? = some q' ∧
      q'.label = closure t.rules t.edges t.size (kernel t.rules q.label s) := by
  obtain ⟨js, hjs, hhead⟩ := Option.bind_eq_some_iff.mp hj
  have hmoves := (h.moves hq name).2
  rw [hjs, Option.getD_some] at hmoves
  obtain ⟨js', rfl⟩ := List.head?_eq_some_iff.mp hhead
  generalize t.movers q.label name t.symbols = ss at hmoves
  cases hmoves with
  | cons hs _ =>
    obtain ⟨q', hq', hlabel⟩ := hs
    exact ⟨_, q', rfl, hq', hlabel⟩

theorem Traces.head_exists (h : t.Traces a kernel₀) (hq : a.states[i]? = some q)
    (hs : s ∈ t.symbols) (hk : kernel t.rules q.label s ≠ []) :
    ∃ j, (q.moves.lookup s.name).bind (·.head?) = some j := by
  have hmoves := (h.moves hq s.name).2
  have hmem : s ∈ t.movers q.label s.name t.symbols := mem_movers.mpr ⟨hs, rfl, hk⟩
  cases hlookup : q.moves.lookup s.name with
  | none =>
    rw [hlookup, Option.getD_none, List.forall₂_nil_right_iff] at hmoves
    rw [hmoves] at hmem
    cases hmem
  | some js =>
    cases js with
    | nil => exact absurd hlookup (h.moves hq s.name).1
    | cons j js => exact ⟨j, rfl⟩

theorem Named.movers_eq (hnamed : t.Named) (hs : t.Occurs s) (hk : kernel t.rules items s ≠ []) :
    t.movers items s.name t.symbols = [s] := by
  have hmem : s ∈ t.movers items s.name t.symbols := mem_movers.mpr ⟨hnamed.mem hs, rfl, hk⟩
  have hall : ∀ s' ∈ t.movers items s.name t.symbols, s' = s := fun s' hs' => by
    obtain ⟨-, hname, hk'⟩ := mem_movers.mp hs'
    exact hnamed.inj (occurs_of_kernel hk') hs hname
  have hnodup : (t.movers items s.name t.symbols).Nodup := hnamed.nodup.filter _
  generalize t.movers items s.name t.symbols = ss at hmem hall hnodup
  match ss with
  | [] => cases hmem
  | [s'] => rw [hall s' (.head _)]
  | s1 :: s2 :: ss =>
    have heq : s1 = s2 := (hall s1 (by simp)).trans (hall s2 (by simp)).symm
    simp [heq] at hnodup

theorem Traces.move (h : t.Traces a kernel₀) (hnamed : t.Named) (hq : a.states[i]? = some q)
    (hs : t.Occurs s)
    (hk : kernel t.rules q.label s ≠ []) :
    ∃ j q', q.moves.lookup s.name = some [j] ∧ a.states[j]? = some q' ∧
      q'.label = closure t.rules t.edges t.size (kernel t.rules q.label s) := by
  have hmoves := (h.moves hq s.name).2
  rw [hnamed.movers_eq hs hk] at hmoves
  cases hlookup : q.moves.lookup s.name with
  | none => rw [hlookup] at hmoves; cases hmoves
  | some js =>
    rw [hlookup, Option.getD_some] at hmoves
    cases hmoves with
    | cons hj hnil =>
      cases hnil
      obtain ⟨q', hq', hlabel⟩ := hj
      exact ⟨_, q', rfl, hq', hlabel⟩

theorem Traces.no_move (h : t.Traces a kernel₀) (hnamed : t.Named) (hq : a.states[i]? = some q)
    (hs : t.Occurs s) (hk : kernel t.rules q.label s = []) : q.moves.lookup s.name = none := by
  have hnil : t.movers q.label s.name t.symbols = [] := by
    refine List.filter_eq_nil_iff.mpr fun s' _ hs' => ?_
    simp only [Bool.and_eq_true, beq_iff_eq, Bool.not_eq_true', List.isEmpty_eq_false_iff] at hs'
    exact hs'.2 (hnamed.inj (occurs_of_kernel hs'.2) hs hs'.1 ▸ hk)
  obtain ⟨hne, hmoves⟩ := h.moves hq s.name
  rw [hnil, List.forall₂_nil_left_iff] at hmoves
  cases hlookup : q.moves.lookup s.name with
  | none => rfl
  | some js =>
    rw [hlookup, Option.getD_some] at hmoves
    rw [hmoves] at hlookup
    exact absurd hlookup hne

end Traces

theorem settled_first (t : Setting ρ) (hfirst : t.ItemSet [first]) :
    t.Settled (t.added [first] {}) := by
  have hempty : t.Filed {} := ⟨rfl, List.nodup_nil, by simp, by simp⟩
  refine { hempty.added hfirst (by simp) with
    pending_lt := ?_, pending_nodup := List.nodup_singleton _, pending_moves :=
      ?_, other_moves := ?_ }
  · intro i hi
    rw [List.mem_singleton.mp hi]
    exact Nat.lt_succ_self 0
  · intro i hi
    rw [List.mem_singleton.mp hi]
    exact .of_moves_nil hempty.states_added_last rfl
  · intro i hi q hq
    obtain ⟨hlt, -⟩ := Array.getElem?_eq_some_iff.mp hq
    exact absurd (Nat.lt_one_iff.mp hlt ▸ List.mem_singleton.mpr rfl) hi

theorem Filed.state_of_kernel (h : t.Filed f) (hk : f.kernels[i]? = some k) :
    ∃ q, f.states[i]? = some q ∧ q.label = closure t.rules t.edges t.size k := by
  have hlt : i < f.states.size := h.size_eq ▸ (Array.getElem?_eq_some_iff.mp hk).1
  exact ⟨_, Array.getElem?_eq_getElem hlt, h.label hk (Array.getElem?_eq_getElem hlt)⟩

theorem Exact.settled_search (ht : t.Exact g) (hfirst : t.ItemSet [first]) :
    t.Settled (t.search first) ∧ (t.search first).pending = [] ∧ (t.search first).kernels[0]? = some
      [first] ∧
      ∀ {P : List Item → Prop}, P [first] →
        (∀ k s, P k → kernel t.rules (closure t.rules t.edges t.size k) s ≠ [] →
        P (kernel t.rules (closure t.rules t.edges t.size k) s)) → ∀ k ∈ (t.search first).kernels,
          P k := by
  have hfile : (t.file [first] {}).2 = t.added [first] {} := by simp [file, added]
  have hexplore : ∀ {P : List Item → Prop}, P [first] → _ := fun {P} h hP =>
    (t.settled_first hfirst).explore ht hP t.bound (P := P) (by simpa [added] using h)
      (Nat.le_refl _)
  rw [← hfile] at hexplore
  obtain ⟨h, hnil, -, hkernel⟩ := hexplore (P := fun _ => True) trivial fun _ _ _ _ => trivial
  exact ⟨h, hnil, hkernel (by rw [hfile]; rfl), fun h hP => (hexplore h hP).2.2.1⟩

theorem Exact.traces_search (ht : t.Exact g) (hfirst : t.ItemSet [first]) :
    t.Traces (t.search first).automaton [first] := by
  obtain ⟨h, hnil, hzero, hkernels⟩ := ht.settled_search hfirst
  have hmoves : ∀ i, t.Moves (t.search first) i t.symbols := fun i =>
    h.other_moves i (by rw [hnil]; exact List.not_mem_nil)
  refine ⟨h.state_of_kernel hzero, fun {i q} hq => ?_, h.itemSet_label ht, fun {i q} hq name => ?_⟩
  · have hi : i < (t.search first).kernels.size := h.size_eq ▸ (Array.getElem?_eq_some_iff.mp hq).1
    rw [h.label (Array.getElem?_eq_getElem hi) hq]
    exact hkernels (P := fun k => t.Reached [first] (closure t.rules t.edges t.size k)) .start
      (fun _ _ => .move) _
      (Array.mem_of_getElem? (Array.getElem?_eq_getElem hi))
  · exact (hmoves i q hq name).imp_right fun hall => hall.imp fun _ _ => h.state_of_kernel

end AutoCool.LR1.Setting
