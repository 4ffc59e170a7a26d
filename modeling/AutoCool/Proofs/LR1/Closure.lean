import AutoCool.Proofs.LR1.Reach
import AutoCool.Proofs.LR1.Rules

/-!
# The closure of items is exact

An item set is read as a set of triples: production, place and a single lookahead, given by its
number (`Has`). The closure of a set has the triples of the least set that contains the given ones
and the productions of every nonterminal that is expected, each with the lookaheads that can follow
it there (`Closes`). It has the places of the least set of places (`Opens`): at some of them an item
may stand without a lookahead.
-/

namespace AutoCool.LR1

variable {ρ : Type}

/-! ### Item sets as sets of triples -/

/-- There is an item for the production and the place. -/
def Stands (items : List Item) (i d : Nat) : Prop := ∃ x ∈ items, x.rule = i ∧ x.dot = d

/-- There is an item for the production and the place, and it has the lookahead of the given
number. -/
def Has (items : List Item) (i d n : Nat) : Prop :=
  ∃ x ∈ items, x.rule = i ∧ x.dot = d ∧ x.ahead.contains n = true

theorem Has.stands (h : Has items i d n) : Stands items i d :=
  h.imp fun _ h => ⟨h.1, h.2.1, h.2.2.1⟩

theorem has_append : Has (xs ++ ys) i d n ↔ Has xs i d n ∨ Has ys i d n := by
  simp only [Has, List.mem_append, or_and_right, exists_or]

theorem stands_append : Stands (xs ++ ys) i d ↔ Stands xs i d ∨ Stands ys i d := by
  simp only [Stands, List.mem_append, or_and_right, exists_or]

/-- Items are ordered by production, then by place. -/
def Item.Before (x y : Item) : Prop := x.rule < y.rule ∨ x.rule = y.rule ∧ x.dot < y.dot

namespace Item

variable {x y : Item} {ys items : List Item} {i d n : Nat}

theorem Before.trans (h : x.Before y) (h' : y.Before z) : x.Before z := by
  unfold Before at *; omega

theorem insert_cases (x y : Item) (ys : List Item) :
    x.Before y ∧ insert x (y :: ys) = x :: y :: ys ∨
      x.rule = y.rule ∧ x.dot = y.dot ∧
        insert x (y :: ys) = { y with ahead := x.ahead.union y.ahead } :: ys ∨
      y.Before x ∧ insert x (y :: ys) = y :: insert x ys := by
  rw [insert]
  by_cases hlt : x.rule < y.rule ∨ x.rule = y.rule ∧ x.dot < y.dot
  · exact .inl ⟨hlt, if_pos (by simpa using hlt)⟩
  · rw [if_neg (by simpa using hlt)]
    by_cases heq : x.rule = y.rule ∧ x.dot = y.dot
    · exact .inr (.inl ⟨heq.1, heq.2, if_pos (by simpa using heq)⟩)
    · refine .inr (.inr ⟨?_, if_neg (by simpa using heq)⟩)
      unfold Before; omega

theorem has_insert : Has (insert x ys) i d n ↔ Has [x] i d n ∨ Has ys i d n := by
  induction ys with
  | nil => simp [insert, Has]
  | cons y ys ih =>
    obtain ⟨-, h⟩ | ⟨hr, hd, h⟩ | ⟨-, h⟩ := insert_cases x y ys
    · rw [h]; simp [Has]
    · rw [h]
      simp only [Has, List.mem_cons, List.not_mem_nil, or_false, exists_eq_or_imp, exists_eq_left,
        BitSet.contains_union, Bool.or_eq_true, ← hr, ← hd]
      rw [← or_assoc, ← and_or_left, ← and_or_left]
    · rw [h]
      simp only [Has, List.mem_cons, List.not_mem_nil, or_false, exists_eq_or_imp,
        exists_eq_left] at ih ⊢
      rw [ih]
      exact or_left_comm

theorem stands_insert : Stands (insert x ys) i d ↔ Stands [x] i d ∨ Stands ys i d := by
  induction ys with
  | nil => simp [insert, Stands]
  | cons y ys ih =>
    obtain ⟨-, h⟩ | ⟨hr, hd, h⟩ | ⟨-, h⟩ := insert_cases x y ys
    · rw [h]; simp [Stands]
    · rw [h]
      simp only [Stands, List.mem_cons, List.not_mem_nil, or_false, exists_eq_or_imp,
        exists_eq_left,
        ← hr, ← hd]
      rw [← or_assoc, or_self]
    · rw [h]
      simp only [Stands, List.mem_cons, List.not_mem_nil, or_false, exists_eq_or_imp,
        exists_eq_left] at ih ⊢
      rw [ih]
      exact or_left_comm

theorem pairwise_insert (h : ys.Pairwise Before) : (insert x ys).Pairwise Before := by
  induction ys with
  | nil => exact List.pairwise_singleton _ _
  | cons y ys ih =>
    obtain ⟨hy, hys⟩ := List.pairwise_cons.mp h
    obtain ⟨hlt, heq⟩ | ⟨hr, hd, heq⟩ | ⟨hlt, heq⟩ := insert_cases x y ys
    · rw [heq]
      refine List.pairwise_cons.mpr ⟨fun z hz => ?_, h⟩
      rcases List.mem_cons.mp hz with rfl | hz
      · exact hlt
      · exact hlt.trans (hy z hz)
    · rw [heq]
      exact List.pairwise_cons.mpr ⟨hy, hys⟩
    · rw [heq]
      refine List.pairwise_cons.mpr ⟨fun z hz => ?_, ih hys⟩
      -- what stands at the place of `z` is `x` or stood there before
      obtain ⟨z', hz', hzr, hzd⟩ | ⟨z', hz', hzr, hzd⟩ := stands_insert.mp ⟨z, hz, rfl, rfl⟩
      · cases List.mem_singleton.mp hz'
        unfold Before at *; omega
      · have := hy z' hz'
        unfold Before at *; omega

theorem has_sort : Has (sort items) i d n ↔ Has items i d n := by
  induction items with
  | nil => rfl
  | cons x items ih => exact has_insert.trans ((or_congr_right ih).trans has_append.symm)

theorem stands_sort : Stands (sort items) i d ↔ Stands items i d := by
  induction items with
  | nil => rfl
  | cons x items ih => exact stands_insert.trans ((or_congr_right ih).trans stands_append.symm)

theorem pairwise_sort (items : List Item) : (sort items).Pairwise Before := by
  induction items with
  | nil => exact .nil
  | cons x items ih => exact pairwise_insert ih

end Item

/-! ### The least closed set -/

/-- After a phrase, and then a lookahead of number `n`, comes a terminal of number `m`. -/
def Follows (g : Grammar ρ) (w : List Symbol) (n m : Nat) : Prop :=
  (∃ b, g.Begins w b ∧ b.id = m) ∨ g.Nullable w ∧ m = n

/-- The least set of triples that has the given ones and, with an item before a nonterminal, the
productions of the nonterminal and what can follow it there. -/
inductive Closes (g : Grammar ρ) (rules : Array (Rule ρ)) (P : Nat → Nat → Nat → Prop) :
    Nat → Nat → Nat → Prop
  | given {i d n} : P i d n → Closes g rules P i d n
  | expand {i d n j m} {r r' : Rule ρ} : Closes g rules P i d n → rules[i]? = some r →
    r.next? d = some r'.production.head → rules[j]? = some r' →
    Follows g (r.symbols.drop (d + 1)) n m → Closes g rules P j 0 m

/-- The least set of places that has the given ones and, with a place before a nonterminal, the
beginnings of the productions of the nonterminal. An item can stand at such a place without a
lookahead. -/
inductive Opens (rules : Array (Rule ρ)) (P : Nat → Nat → Prop) : Nat → Nat → Prop
  | given {i d} : P i d → Opens rules P i d
  | expand {i d j} {r r' : Rule ρ} : Opens rules P i d → rules[i]? = some r →
    r.next? d = some r'.production.head → rules[j]? = some r' → Opens rules P j 0

/-- What the construction of the automaton uses of the rules it is given. -/
structure Setting.Exact (t : Setting ρ) (g : Grammar ρ) : Prop where
  spreads : Spreads g t.rules
  edges_eq : t.edges = edgesOf t.rules
  symbol_lt : ∀ {i : Nat} {r : Rule ρ} {s : Symbol}, t.rules[i]? = some r → s ∈ r.symbols →
    s.id < t.size
  begins_lt : ∀ {i d : Nat} {r : Rule ρ} {b : Symbol}, t.rules[i]? = some r →
    g.Begins (r.symbols.drop d) b → b.id < t.size
  head_inj : ∀ {i j : Nat} {r r' : Rule ρ} {s : Symbol}, t.rules[i]? = some r → s ∈ r.symbols →
    t.rules[j]? = some r' → s.id = r'.production.head.id → s = r'.production.head
  headsNonterminal : ∀ {i : Nat} {r : Rule ρ}, t.rules[i]? = some r →
    r.production.head.isNonterminal = true

theorem Ruled.exact {rules : Array (Rule ρ)} (h : Ruled g rules) (symbols : List Symbol) :
    Setting.Exact { rules, edges := edgesOf rules, symbols, size := g.nextId } g := by
  have hmem : ∀ {i : Nat} {r : Rule ρ} {s : Symbol}, rules[i]? = some r → s ∈ r.symbols →
      s ∈ g.symbols :=
    fun hr hs => .tail _ (h.plain.mem_of_rewrites (h.rewrites hr) _ hs)
  refine ⟨h.spreads, rfl, fun hr hs => h.wf.id_lt _ (hmem hr hs), fun {i d r b} hr hb => ?_,
    fun {i j r r' s} hr hs hr' hid => ?_, fun hr => h.wf.headsNonterminal _ (h.rewrites hr).1⟩
  · have hterm := h.plain.mem_terminals h.wf.formed hb fun s hs =>
      h.plain.mem_of_rewrites (h.rewrites hr) s (List.mem_of_mem_drop hs)
    exact h.wf.id_lt b (.tail _ (List.mem_append_left _ hterm))
  · refine h.wf.eq_of_id (hmem hr hs) (.tail _ (List.mem_append_right _ ?_)) hid
    exact h.wf.head_mem _ (h.wf.filed_eq ▸ (h.rewrites hr').1)

namespace Setting

variable {t : Setting ρ} {g : Grammar ρ} {items : List Item} {i d n : Nat} {r : Rule ρ} {e : Spread}

theorem Exact.spread_passed (ht : t.Exact g) (hr : t.rules[i]? = some r)
    (he : r.spread? d = some e) :
    ∃ s, r.next? d = some s ∧ e.target = s.id ∧ ∀ (A : BitSet) (n : Nat),
      (e.passed A).contains n = true ↔
        ∃ m, A.contains m = true ∧ Follows g (r.symbols.drop (d + 1)) m n := by
  obtain ⟨s, hs, hnt⟩ := ht.spreads.expects hr he
  obtain ⟨e', he', htarget, -, hbegins, hpasses⟩ := ht.spreads.spread hr hs hnt
  cases he.symm.trans he'
  refine ⟨s, hs, htarget, fun A n => ?_⟩
  simp only [Spread.contains_passed, Follows, hbegins, hpasses]

/-- The table that the closure of some items is found with. -/
def reach (t : Setting ρ) (items : List Item) : Reach :=
  saturate t.edges (t.size * (t.size + 1) + 1) (seed t.rules t.size items)

theorem mem_asksOf {rules : Array (Rule ρ)} : a ∈ asksOf rules items ↔
    ∃ x ∈ items, ∃ r e, rules[x.rule]? = some r ∧ r.spread? x.dot = some e ∧
      a = (e.target, e.passed x.ahead) := by
  simp only [asksOf, List.mem_filterMap, Option.map_eq_some_iff, Option.bind_eq_some_iff,
    eq_comm (b := a)]
  constructor
  · rintro ⟨x, hx, e, ⟨r, hr, he⟩, ha⟩
    exact ⟨x, hx, r, e, hr, he, ha⟩
  · rintro ⟨x, hx, r, e, hr, he, ha⟩
    exact ⟨x, hx, e, ⟨r, hr, he⟩, ha⟩

theorem mem_edgesOf {rules : Array (Rule ρ)} :
    a ∈ edgesOf rules ↔ ∃ (i : Nat) (r : Rule ρ), rules[i]? = some r ∧ r.spread? 0 = some a.2 ∧
    a.1 = r.production.head.id := by
  simp only [edgesOf, List.mem_filterMap, Option.map_eq_some_iff]
  constructor
  · rintro ⟨r, hr, e, he, rfl⟩
    obtain ⟨i, hi⟩ := List.mem_iff_getElem?.mp hr
    exact ⟨i, r, Array.getElem?_toList ▸ hi, he, rfl⟩
  · rintro ⟨i, r, hi, he, ha⟩
    exact ⟨r, List.mem_of_getElem? (Array.getElem?_toList ▸ hi), a.2, he, Prod.ext ha.symm rfl⟩

theorem mem_beginnings {rules : Array (Rule ρ)} : x ∈ beginnings rules R ↔
    ∃ r, rules[x.rule]? = some r ∧ x.dot = 0 ∧ R.get? r.production.head.id = some x.ahead := by
  simp only [beginnings, List.mem_filterMap, Option.map_eq_some_iff, Prod.exists,
    List.mem_zipIdx_iff_getElem?, Array.getElem?_toList]
  constructor
  · rintro ⟨r, i, hi, A, hA, rfl⟩
    exact ⟨r, hi, rfl, hA⟩
  · rintro ⟨r, hi, hd, hA⟩
    exact ⟨r, x.rule, hi, x.ahead, hA, by rw [← hd]⟩

theorem Exact.edgesBounded (ht : t.Exact g) : Reach.EdgesBounded t.edges t.size := by
  intro a ha
  rw [ht.edges_eq] at ha
  obtain ⟨i, r, hr, he, -⟩ := mem_edgesOf.mp ha
  obtain ⟨s, hs, hnt⟩ := ht.spreads.expects hr he
  obtain ⟨e, he', htarget, -, hbegins, -⟩ := ht.spreads.spread hr hs hnt
  cases he.symm.trans he'
  refine ⟨htarget ▸ ht.symbol_lt hr (List.mem_of_getElem? hs), fun n hn => ?_⟩
  obtain ⟨b, hb, rfl⟩ := (hbegins n).mp hn
  exact ht.begins_lt hr hb

/-- A nonterminal is asked for with a lookahead by an item of the least closed set. -/
def Asked (t : Setting ρ) (g : Grammar ρ) (P : Nat → Nat → Nat → Prop) (m n : Nat) : Prop :=
  ∃ (i d k : Nat) (r : Rule ρ) (s : Symbol), Closes g t.rules P i d k ∧ t.rules[i]? = some r ∧
    r.next? d = some s ∧ s.id = m ∧ Follows g (r.symbols.drop (d + 1)) k n

theorem Exact.closes_of_asked (ht : t.Exact g) (hr : t.rules[i]? = some r)
    (h : t.Asked g P r.production.head.id n) : Closes g t.rules P i 0 n := by
  obtain ⟨j, d, k, r', s, hc, hr', hs, hid, hf⟩ := h
  obtain rfl := ht.head_inj hr' (List.mem_of_getElem? hs) hr hid
  exact .expand hc hr' hs hr hf

/-- A nonterminal is expected at a place of the least set. -/
def Awaited (t : Setting ρ) (P : Nat → Nat → Prop) (m : Nat) : Prop :=
  ∃ (i d : Nat) (r : Rule ρ) (s : Symbol), Opens t.rules P i d ∧ t.rules[i]? = some r ∧
    r.next? d = some s ∧ s.id = m

theorem Exact.opens_of_awaited (ht : t.Exact g) (hr : t.rules[i]? = some r)
    (h : t.Awaited P r.production.head.id) : Opens t.rules P i 0 := by
  obtain ⟨j, d, r', s, ho, hr', hs, hid⟩ := h
  obtain rfl := ht.head_inj hr' (List.mem_of_getElem? hs) hr hid
  exact .expand ho hr' hs hr

theorem Exact.reach_sound (ht : t.Exact g) :
    (t.reach items).Holds (t.Awaited (Stands items)) (t.Asked g (Has items)) := by
  -- what an item of the set asks for
  have hask : ∀ {i d : Nat} {r : Rule ρ} {e : Spread} {A : BitSet}, t.rules[i]? = some r →
      r.spread? d = some e → Opens t.rules (Stands items) i d →
      (∀ n, A.contains n = true → Closes g t.rules (Has items) i d n) →
      t.Awaited (Stands items) e.target ∧ ∀ n, (e.passed A).contains n = true →
        t.Asked g (Has items) e.target n := by
    intro i d r e A hr he ho hA
    obtain ⟨s, hs, htarget, hpassed⟩ := ht.spread_passed hr he
    refine ⟨⟨i, d, r, s, ho, hr, hs, htarget.symm⟩, fun n hn => ?_⟩
    obtain ⟨m, hm, hf⟩ := (hpassed A n).mp hn
    exact ⟨i, d, m, r, s, hA m hm, hr, hs, htarget.symm, hf⟩
  refine Reach.Holds.saturate ?_ fun a ha A hE hA => ?_
  · rw [seed_eq]
    refine Reach.Holds.joinAll (fun m A h => ?_) fun m A hm => ?_
    · rw [Reach.get?_replicate] at h
      cases h
    · obtain ⟨x, hx, r, e, hr, he, ha⟩ := mem_asksOf.mp hm
      cases ha
      exact hask hr he (.given ⟨x, hx, rfl, rfl⟩) fun n hn => .given ⟨x, hx, rfl, rfl, hn⟩
  · rw [ht.edges_eq] at ha
    obtain ⟨i, r, hr, he, hhead⟩ := mem_edgesOf.mp ha
    rw [hhead] at hE hA
    exact hask hr he (ht.opens_of_awaited hr hE) fun n hn => ht.closes_of_asked hr (hA n hn)

section Bounded

variable (ht : t.Exact g) (hitems : ∀ {i d n}, Has items i d n → n < t.size)

include ht hitems

theorem Exact.closes_lt (h : Closes g t.rules (Has items) i d n) : n < t.size := by
  induction h with
  | given h => exact hitems h
  | expand _ hr _ _ hf ih =>
    rcases hf with ⟨b, hb, rfl⟩ | ⟨-, rfl⟩
    · exact ht.begins_lt hr hb
    · exact ih

theorem Exact.reach_bounded : (t.reach items).Bounded t.size where
  size_eq := by rw [reach, Reach.size_saturate, seed_eq, Reach.size_joinAll, Array.size_replicate]
  lt m A hA := by
    refine ⟨trivial, fun n hn => ?_⟩
    obtain ⟨i, d, k, r, s, hc, hr, -, -, hf⟩ := (ht.reach_sound m A hA).2 n hn
    rcases hf with ⟨b, hb, rfl⟩ | ⟨-, rfl⟩
    · exact ht.begins_lt hr hb
    · exact ht.closes_lt hitems hc

theorem Exact.seed_bounded : (seed t.rules t.size items).Bounded t.size where
  size_eq := by rw [seed_eq, Reach.size_joinAll, Array.size_replicate]
  lt m A hA := by
    refine ⟨trivial, fun n hn => ?_⟩
    obtain ⟨B, hB, hsub⟩ := Reach.le_saturate t.edges (t.size * (t.size + 1) + 1) _ m A hA
    exact ((ht.reach_bounded hitems).lt m B hB).2 n (hsub n hn)

/-- The lookaheads at a place: those of a given item, or at a beginning those of the nonterminal in
the table. -/
def Listed (t : Setting ρ) (items : List Item) (i d : Nat) (A : BitSet) : Prop :=
  (∃ x ∈ items, x.rule = i ∧ x.dot = d ∧ x.ahead = A) ∨
    d = 0 ∧ ∃ r : Rule ρ, t.rules[i]? = some r ∧ (t.reach items).get? r.production.head.id = some A

theorem Exact.listed_expand {j : Nat} (h : t.Listed items i d A) (hr : t.rules[i]? = some r)
    (hs : r.next? d = some r'.production.head) (hr' : t.rules[j]? = some r') : ∃ C,
      t.Listed items j 0 C ∧
      ∀ n m, A.contains n = true → Follows g (r.symbols.drop (d + 1)) n m →
        C.contains m = true := by
  have hfix : spreadOnce t.edges (t.reach items) = t.reach items :=
    Reach.spreadOnce_saturate (ht.seed_bounded hitems) ht.edgesBounded (by omega)
  obtain ⟨e, he, htarget, -⟩ := ht.spreads.spread hr hs (ht.headsNonterminal hr')
  obtain ⟨s, hs', -, hpassed⟩ := ht.spread_passed hr he
  obtain rfl : r'.production.head = s := Option.some.inj (hs.symm.trans hs')
  -- the place asks for its nonterminal: at the beginning of the walk, or along an edge
  have hcovers : (t.reach items).Covers e.target (e.passed A) := by
    rcases h with ⟨x, hx, rfl, rfl, rfl⟩ | ⟨rfl, r1, hr1, hA⟩
    · refine Reach.Covers.mono (Reach.le_saturate _ _ _) ?_
      rw [seed_eq]
      refine Reach.covers_joinAll (mem_asksOf.mpr ⟨x, hx, r, e, hr, he, rfl⟩) ?_
      rw [Array.size_replicate, htarget]
      exact ht.symbol_lt hr (List.mem_of_getElem? hs)
    · obtain rfl : r1 = r := Option.some.inj (hr1.symm.trans hr)
      have hedge : (r1.production.head.id, e) ∈ t.edges := by
        rw [ht.edges_eq]
        exact mem_edgesOf.mpr ⟨i, r1, hr, he, rfl⟩
      exact Reach.covers_of_fixed (ht.reach_bounded hitems) ht.edgesBounded hfix hedge hA
  obtain ⟨C, hC, hsub⟩ := hcovers
  exact ⟨C, .inr ⟨rfl, r', hr', htarget ▸ hC⟩, fun n m hn hf =>
    hsub m ((hpassed A m).mpr ⟨n, hn, hf⟩)⟩

theorem Exact.listed_of_closes (h : Closes g t.rules (Has items) i d n) :
    ∃ A, t.Listed items i d A ∧ A.contains n = true := by
  induction h with
  | given h =>
    obtain ⟨x, hx, hrule, hdot, hn⟩ := h
    exact ⟨x.ahead, .inl ⟨x, hx, hrule, hdot, rfl⟩, hn⟩
  | expand _ hr hs hr' hf ih =>
    obtain ⟨A, hA, hn⟩ := ih
    obtain ⟨C, hC, hsub⟩ := ht.listed_expand hitems hA hr hs hr'
    exact ⟨C, hC, hsub _ _ hn hf⟩

theorem Exact.listed_of_opens (h : Opens t.rules (Stands items) i d) :
    ∃ A, t.Listed items i d A := by
  induction h with
  | given h =>
    obtain ⟨x, hx, hrule, hdot⟩ := h
    exact ⟨x.ahead, .inl ⟨x, hx, hrule, hdot, rfl⟩⟩
  | expand _ hr hs hr' ih =>
    obtain ⟨A, hA⟩ := ih
    obtain ⟨C, hC, -⟩ := ht.listed_expand hitems hA hr hs hr'
    exact ⟨C, hC⟩

omit ht hitems in
theorem mem_closure_of_listed (h : t.Listed items i d A) :
    ∃ x ∈ items ++ beginnings t.rules (t.reach items), x.rule = i ∧ x.dot = d ∧ x.ahead = A := by
  rcases h with ⟨x, hx, hrule, hdot, hA⟩ | ⟨rfl, r, hr, hA⟩
  · exact ⟨x, List.mem_append_left _ hx, hrule, hdot, hA⟩
  · exact ⟨{ rule := i, dot := 0, ahead := A },
      List.mem_append_right _ (mem_beginnings.mpr ⟨r, hr, rfl, hA⟩), rfl, rfl, rfl⟩

theorem Exact.has_closure :
    Has (closure t.rules t.edges t.size items) i d n ↔ Closes g t.rules (Has items) i d n := by
  rw [closure, Item.has_sort]
  constructor
  · rw [has_append]
    rintro (h | ⟨x, hx, rfl, rfl, hn⟩)
    · exact .given h
    · obtain ⟨r, hr, hdot, hA⟩ := mem_beginnings.mp hx
      rw [hdot]
      exact ht.closes_of_asked hr ((ht.reach_sound _ _ hA).2 n hn)
  · intro h
    obtain ⟨A, hA, hn⟩ := ht.listed_of_closes hitems h
    obtain ⟨x, hx, hrule, hdot, rfl⟩ := mem_closure_of_listed hA
    exact ⟨x, hx, hrule, hdot, hn⟩

theorem Exact.stands_closure_iff :
    Stands (closure t.rules t.edges t.size items) i d ↔ Opens t.rules (Stands items) i d := by
  rw [closure, Item.stands_sort]
  constructor
  · rw [stands_append]
    rintro (h | ⟨x, hx, rfl, rfl⟩)
    · exact .given h
    · obtain ⟨r, hr, hdot, hA⟩ := mem_beginnings.mp hx
      rw [hdot]
      exact ht.opens_of_awaited hr (ht.reach_sound _ _ hA).1
  · intro h
    obtain ⟨A, hA⟩ := ht.listed_of_opens hitems h
    obtain ⟨x, hx, hrule, hdot, -⟩ := mem_closure_of_listed hA
    exact ⟨x, hx, hrule, hdot⟩

end Bounded

theorem stands_closure_of_stands (h : Stands items i d) :
    Stands (closure t.rules t.edges t.size items) i d := by
  rw [closure, Item.stands_sort, stands_append]
  exact .inl h

/-- The number is that of a symbol in a right side. -/
def Mentions (t : Setting ρ) (m : Nat) : Prop :=
  ∃ (i : Nat) (r : Rule ρ) (s : Symbol), t.rules[i]? = some r ∧ s ∈ r.symbols ∧ s.id = m

theorem Exact.stands_closure (ht : t.Exact g)
    (h : Stands (closure t.rules t.edges t.size items) i d) :
    Stands items i d ∨ d = 0 ∧ ∃ r : Rule ρ, t.rules[i]? = some r ∧
    t.Mentions r.production.head.id := by
  rw [closure, Item.stands_sort, stands_append] at h
  rcases h with h | ⟨x, hx, rfl, rfl⟩
  · exact .inl h
  · obtain ⟨r, hr, hdot, hA⟩ := mem_beginnings.mp hx
    obtain ⟨j, d, r', s, -, hr', hs, hid⟩ := (ht.reach_sound _ _ hA).1
    exact .inr ⟨hdot, r, hr, j, r', s, hr', List.mem_of_getElem? hs, hid⟩

/-- When something can come after every nonterminal of a right side, the nonterminals in the table
are asked for with a lookahead. -/
theorem Exact.reach_asked (ht : t.Exact g)
    (hlive : ∀ {i d n : Nat} {r : Rule ρ} {e : Spread}, t.rules[i]? = some r →
      r.spread? d = some e →
      ∃ m, Follows g (r.symbols.drop (d + 1)) n m)
    (hitems : ∀ {i d}, Stands items i d → ∃ n, Has items i d n) :
    (t.reach items).Holds (fun m => ∃ n, t.Asked g (Has items) m n) (fun _ _ => True) := by
  have hask : ∀ {i d n : Nat} {r : Rule ρ} {e : Spread}, t.rules[i]? = some r →
      r.spread? d = some e →
      Closes g t.rules (Has items) i d n → ∃ m, t.Asked g (Has items) e.target m := by
    intro i d n r e hr he hn
    obtain ⟨s, hs, htarget, -⟩ := ht.spread_passed hr he
    obtain ⟨m, hm⟩ := hlive hr he
    exact ⟨m, i, d, n, r, s, hn, hr, hs, htarget.symm, hm⟩
  refine Reach.Holds.saturate ?_ fun a ha A hE _ => ⟨?_, fun _ _ => trivial⟩
  · rw [seed_eq]
    refine Reach.Holds.joinAll (fun m A h => ?_) fun m A hm => ⟨?_, fun _ _ => trivial⟩
    · rw [Reach.get?_replicate] at h
      cases h
    · obtain ⟨x, hx, r, e, hr, he, ha⟩ := mem_asksOf.mp hm
      cases ha
      obtain ⟨n, hn⟩ := hitems ⟨x, hx, rfl, rfl⟩
      exact hask hr he (.given hn)
  · rw [ht.edges_eq] at ha
    obtain ⟨i, r, hr, he, hhead⟩ := mem_edgesOf.mp ha
    rw [hhead] at hE
    obtain ⟨n, hn⟩ := hE
    exact hask hr he (ht.closes_of_asked hr hn)

/-- Then every item of the closure has a lookahead when the given ones have. -/
theorem Exact.has_of_stands_closure (ht : t.Exact g) (hlt : ∀ {i d n}, Has items i d n → n < t.size)
    (hlive : ∀ {i d n : Nat} {r : Rule ρ} {e : Spread}, t.rules[i]? = some r →
      r.spread? d = some e →
      ∃ m, Follows g (r.symbols.drop (d + 1)) n m)
    (hitems : ∀ {i d}, Stands items i d → ∃ n, Has items i d n)
    (h : Stands (closure t.rules t.edges t.size items) i d) :
    ∃ n, Has (closure t.rules t.edges t.size items) i d n := by
  simp only [ht.has_closure hlt]
  rw [closure, Item.stands_sort, stands_append] at h
  rcases h with h | ⟨x, hx, rfl, rfl⟩
  · exact (hitems h).imp fun _ => .given
  · obtain ⟨r, hr, hdot, hA⟩ := mem_beginnings.mp hx
    rw [hdot]
    obtain ⟨n, hn⟩ := (ht.reach_asked hlive hitems _ _ hA).1
    exact ⟨n, ht.closes_of_asked hr hn⟩

/-! ### No item cannot be read -/

theorem Exact.faultAmong?_eq (ht : t.Exact g) (items : List Item) :
    faultAmong? t.rules items = none := by
  rw [faultAmong?, List.findSome?_eq_none_iff]
  intro x _
  cases hr : t.rules[x.rule]? with
  | none => rfl
  | some r =>
    rw [Option.bind_some, Rule.fault?]
    split
    · split
      · rfl
      · cases he : r.spread? x.dot with
        | none => rfl
        | some e =>
          obtain ⟨s, hs, hnt⟩ := ht.spreads.expects hr he
          obtain ⟨e', he', -, hfault, -⟩ := ht.spreads.spread hr hs hnt
          cases he.symm.trans he'
          exact hfault
    · rw [ht.spreads.obstacle hr]

theorem Exact.closureFault?_eq (ht : t.Exact g) (items : List Item) :
    closureFault? t.rules t.edges t.size items = none := by
  have hspread : ∀ fuel r, spreadFault? t.rules t.edges fuel r = none := by
    intro fuel
    induction fuel with
    | zero => exact fun r => ht.faultAmong?_eq _
    | succ fuel ih =>
      intro r
      rw [spreadFault?, ht.faultAmong?_eq]
      simp only [ih, ite_self]
  rw [closureFault?, ht.faultAmong?_eq]
  exact hspread _ _

end Setting

end AutoCool.LR1
