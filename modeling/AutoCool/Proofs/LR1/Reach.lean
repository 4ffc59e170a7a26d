import Mathlib.Data.List.Basic
import Mathlib.Data.List.ProdSigma
import AutoCool.LR1.Closure

/-!
# Tables of lookaheads

The closure of an item set is found with a table from nonterminals to lookaheads. Its entries only
ever grow, so a property that every spread passes on holds of all that is found
(`Reach.Holds.saturate`). Each round but the last fills one more cell at least, so the rounds that
are allowed are enough (`Reach.spreadOnce_saturate`), and the table is then closed under the spreads
(`Reach.covers_of_fixed`).
-/

namespace AutoCool

namespace BitSet

variable {s t : BitSet} {n : Nat}

/-- The members of the first set are members of the second. -/
def Sub (s t : BitSet) : Prop := ∀ n, s.contains n = true → t.contains n = true

theorem isEmpty_iff : s.isEmpty = true ↔ ∀ n, s.contains n = false := by
  constructor
  · intro h n
    have : s.bits = 0 := eq_of_beq h
    rw [contains, this, Nat.zero_testBit]
  · intro h
    have : s = empty := ext fun n => (h n).trans (contains_empty n).symm
    rw [this]; rfl

theorem Sub.union_left (h : s.Sub t) (u : BitSet) : s.Sub (t.union u) := fun n hn => by
  rw [contains_union, h n hn, Bool.true_or]

end BitSet

namespace LR1

variable {ρ : Type}

/-! ### What is asked for -/

/-- What an item at a place with given lookaheads asks for there. -/
def Spread.passed (e : Spread) (ahead : BitSet) : BitSet :=
  if ahead.isEmpty then BitSet.empty else if e.passes then e.begins.union ahead else e.begins

theorem Spread.contains_passed {e : Spread} :
    (e.passed ahead).contains n = true ↔
      ∃ m, ahead.contains m = true ∧ (e.begins.contains n = true ∨ e.passes = true ∧ n = m) := by
  unfold passed
  cases hempty : ahead.isEmpty with
  | true => simp [BitSet.isEmpty_iff.mp hempty]
  | false =>
    obtain ⟨m, hm⟩ : ∃ m, ahead.contains m = true := by
      by_contra h
      have := BitSet.isEmpty_iff.mpr fun n => by simpa using fun hn => h ⟨n, hn⟩
      rw [hempty] at this
      cases this
    cases hpass : e.passes with
    | false => simp; exact fun _ => ⟨m, hm⟩
    | true =>
      simp only [Bool.false_eq_true, if_false, if_true, BitSet.contains_union, Bool.or_eq_true,
        true_and]
      constructor
      · rintro (h | h)
        · exact ⟨m, hm, .inl h⟩
        · exact ⟨n, h, .inr rfl⟩
      · rintro ⟨m, hm, h | rfl⟩
        · exact .inl h
        · exact .inr hm

namespace Reach

variable {r r' : Reach} {m n k : Nat} {A B : BitSet}

/-- The nonterminal is expected with the given lookaheads at least. -/
def Covers (r : Reach) (m : Nat) (A : BitSet) : Prop := ∃ B, r.get? m = some B ∧ A.Sub B

/-- Whatever one table has, the other has too. -/
def Le (r r' : Reach) : Prop := ∀ m A, r.get? m = some A → r'.Covers m A

theorem Le.refl (r : Reach) : r.Le r := fun _ A h => ⟨A, h, fun _ hn => hn⟩

theorem Covers.mono (h : r.Le r') (hc : r.Covers m A) : r'.Covers m A := by
  obtain ⟨B, hB, hsub⟩ := hc
  obtain ⟨C, hC, hsub'⟩ := h m B hB
  exact ⟨C, hC, fun n hn => hsub' n (hsub n hn)⟩

theorem Le.trans (h : r.Le r') (h' : r'.Le r'') : r.Le r'' :=
  fun m A hA => (h m A hA).mono h'

theorem lt_size_of_get? (h : r.get? m = some A) : m < r.size := by
  by_contra hm
  rw [get?, Array.getElem?_eq_none (Nat.le_of_not_lt hm)] at h
  cases h

@[simp] theorem get?_replicate (size m : Nat) : get? (Array.replicate size none) m = none := by
  rw [get?, Array.getElem?_replicate]
  split <;> rfl

@[simp] theorem size_join (r : Reach) (m : Nat) (A : BitSet) : (r.join m A).size = r.size :=
  Array.size_modify

theorem get?_join (r : Reach) (m k : Nat) (A : BitSet) : (r.join m A).get? k =
      if m = k ∧ k < r.size then some (match r.get? k with | none => A | some B => B.union A)
      else r.get? k := by
  rw [get?, join, Array.getElem?_modify, get?]
  by_cases hm : m = k
  · subst hm
    by_cases hk : m < r.size
    · rw [Array.getElem?_eq_getElem hk]
      cases h : r[m] <;> simp [hk]
    · rw [Array.getElem?_eq_none (Nat.le_of_not_lt hk)]
      simp [hk]
  · simp [hm]

theorem le_join (r : Reach) (m : Nat) (A : BitSet) : r.Le (r.join m A) := by
  intro k B hB
  rw [Covers, get?_join, hB]
  split
  · exact ⟨_, rfl, BitSet.Sub.union_left (fun _ h => h) A⟩
  · exact ⟨B, rfl, fun _ h => h⟩

theorem covers_join (hm : m < r.size) : (r.join m A).Covers m A := by
  rw [Covers, get?_join, if_pos ⟨rfl, hm⟩]
  cases r.get? m with
  | none => exact ⟨A, rfl, fun _ h => h⟩
  | some B => exact ⟨_, rfl, fun n hn => by rw [BitSet.contains_union, hn, Bool.or_true]⟩

/-- Every nonterminal of the table has a property, and so has every lookahead of it. -/
def Holds (E : Nat → Prop) (Q : Nat → Nat → Prop) (r : Reach) : Prop :=
  ∀ m A, r.get? m = some A → E m ∧ ∀ n, A.contains n = true → Q m n

theorem Holds.join (h : r.Holds E Q) (hE : E m)
    (hQ : ∀ n, A.contains n = true → Q m n) : (r.join m A).Holds E Q := by
  intro k C hC
  rw [get?_join] at hC
  split at hC
  · obtain ⟨rfl, -⟩ := ‹m = k ∧ k < r.size›
    refine ⟨hE, fun n hn => ?_⟩
    cases hk : r.get? m with
    | none => rw [hk] at hC; cases hC; exact hQ n hn
    | some B =>
      rw [hk] at hC
      cases hC
      rw [BitSet.contains_union, Bool.or_eq_true] at hn
      exact hn.elim ((h m B hk).2 n) (hQ n)
  · exact h k C hC

/-- Expects several nonterminals, each with some lookaheads. -/
def joinAll (r : Reach) (asks : List (Nat × BitSet)) : Reach :=
  asks.foldl (fun r a => r.join a.1 a.2) r

section JoinAll

variable {asks : List (Nat × BitSet)}

@[simp] theorem size_joinAll : (r.joinAll asks).size = r.size := by
  induction asks generalizing r with
  | nil => rfl
  | cons a asks ih => exact ih.trans (size_join ..)

theorem le_joinAll (r : Reach) (asks : List (Nat × BitSet)) : r.Le (r.joinAll asks) := by
  induction asks generalizing r with
  | nil => exact .refl r
  | cons a asks ih => exact (le_join r a.1 a.2).trans (ih _)

theorem covers_joinAll (h : (m, A) ∈ asks) (hm : m < r.size) : (r.joinAll asks).Covers m A := by
  induction asks generalizing r with
  | nil => cases h
  | cons a asks ih =>
    rcases List.mem_cons.mp h with rfl | h
    · exact (covers_join hm).mono (le_joinAll _ asks)
    · exact ih h (by rwa [size_join])

theorem Holds.joinAll (h : r.Holds E Q)
    (hasks : ∀ m A, (m, A) ∈ asks → E m ∧ ∀ n, A.contains n = true → Q m n) :
    (r.joinAll asks).Holds E Q := by
  induction asks generalizing r with
  | nil => exact h
  | cons a asks ih =>
    obtain ⟨hE, hQ⟩ := hasks a.1 a.2 (.head _)
    exact ih (h.join hE hQ) fun m A hm => hasks m A (.tail a hm)

end JoinAll

end Reach

/-- What some items ask for. -/
def asksOf (rules : Array (Rule ρ)) (items : List Item) : List (Nat × BitSet) :=
  items.filterMap fun x => ((rules[x.rule]?).bind (·.spread? x.dot)).map fun e =>
    (e.target, e.passed x.ahead)

theorem seed_eq (rules : Array (Rule ρ)) (size : Nat) (items : List Item) :
    seed rules size items = Reach.joinAll (Array.replicate size none) (asksOf rules items) := by
  unfold seed
  generalize (Array.replicate size none : Reach) = r
  induction items generalizing r with
  | nil => rfl
  | cons x items ih =>
    rw [List.foldl_cons, ih]
    simp only [asksOf, List.filterMap_cons]
    cases (rules[x.rule]?).bind (·.spread? x.dot) <;> rfl

/-- What the nonterminals of a table ask for at the beginnings of their productions. -/
def asksAlong (edges : List (Nat × Spread)) (r : Reach) : List (Nat × BitSet) :=
  edges.filterMap fun e => (r.get? e.1).map fun ahead => (e.2.target, e.2.passed ahead)

theorem spreadOnce_eq (edges : List (Nat × Spread)) (r : Reach) :
    spreadOnce edges r = r.joinAll (asksAlong edges r) := by
  unfold spreadOnce
  -- the table that is read stays the same while the other one grows
  refine (?_ : ∀ r' : Reach, edges.foldl _ r' = r'.joinAll (asksAlong edges r)) r
  induction edges with
  | nil => exact fun _ => rfl
  | cons e edges ih =>
    intro r'
    rw [List.foldl_cons, ih]
    simp only [asksAlong, List.filterMap_cons]
    cases r.get? e.1 <;> rfl

namespace Reach

variable {r r' : Reach} {size m n : Nat}

/-- The number of the table's entries is given, and so is a bound on the lookaheads. -/
structure Bounded (r : Reach) (size : Nat) : Prop where
  size_eq : r.size = size
  lt : r.Holds (fun _ => True) fun _ n => n < size

/-- The cells that a table can fill: a nonterminal is expected with a lookahead, or, in the last
column, at all. -/
def cells (size : Nat) : List (Nat × Nat) := List.range size ×ˢ List.range (size + 1)

/-- The cells that a table fills. -/
def filled (r : Reach) (size : Nat) : List (Nat × Nat) :=
  (cells size).filter fun c => (r.get? c.1).any fun A => c.2 == size || A.contains c.2

theorem mem_filled : (m, n) ∈ r.filled size ↔ m < size ∧ n ≤ size ∧
    ∃ A, r.get? m = some A ∧ (n = size ∨ A.contains n = true) := by
  simp only [filled, cells, List.mem_filter, List.mem_product, List.mem_range, Nat.lt_succ_iff,
    Option.any_eq_true, Bool.or_eq_true, beq_iff_eq, and_assoc]

theorem length_filled_le (r : Reach) (size : Nat) : (r.filled size).length ≤ size * (size + 1) := by
  have : (cells size).length = size * (size + 1) := by simp [cells, List.length_product]
  rw [← this]
  exact List.length_filter_le _ _

theorem filled_sublist (h : r.Le r') (size : Nat) : (r.filled size).Sublist (r'.filled size) := by
  refine List.monotone_filter_right _ fun c hc => ?_
  obtain ⟨A, hA, hor⟩ := (Option.any_eq_true _ _).mp hc
  obtain ⟨B, hB, hAB⟩ := h c.1 A hA
  refine (Option.any_eq_true _ _).mpr ⟨B, hB, ?_⟩
  rw [Bool.or_eq_true] at hor ⊢
  exact hor.imp_right (hAB c.2)

theorem le_of_filled (hr : r.Bounded size) (h : r.filled size ⊆ r'.filled size) : r.Le r' := by
  intro m A hA
  have hm : m < size := hr.size_eq ▸ lt_size_of_get? hA
  obtain ⟨-, -, B, hB, -⟩ := mem_filled.mp (h (mem_filled.mpr ⟨hm, Nat.le_refl _, A, hA, .inl rfl⟩))
  refine ⟨B, hB, fun n hn => ?_⟩
  have hlt : n < size := (hr.lt m A hA).2 n hn
  obtain ⟨-, -, B', hB', hor⟩ :=
    mem_filled.mp (h (mem_filled.mpr ⟨hm, Nat.le_of_lt hlt, A, hA, .inr hn⟩))
  cases hB'.symm.trans hB
  exact hor.resolve_left (Nat.ne_of_lt hlt)

theorem Le.antisymm (h : r.Le r') (h' : r'.Le r) (hsize : r.size = r'.size) : r = r' := by
  refine Array.ext hsize fun i hi hi' => ?_
  have hget : ∀ {r : Reach} (hi : i < r.size), r.get? i = r[i] := fun hi => by
    rw [get?, Array.getElem?_eq_getElem hi]
    rfl
  rw [← hget hi, ← hget hi']
  cases hA : r.get? i with
  | none =>
    cases hB : r'.get? i with
    | none => rfl
    | some B =>
      obtain ⟨A, hA', -⟩ := h' i B hB
      rw [hA] at hA'
      cases hA'
  | some A =>
    obtain ⟨B, hB, hAB⟩ := h i A hA
    obtain ⟨A', hA', hBA⟩ := h' i B hB
    cases hA'.symm.trans hA
    rw [hB, BitSet.ext fun n => Bool.eq_iff_iff.mpr ⟨hAB n, hBA n⟩]

theorem length_filled_lt (hr : r.Bounded size) (hr' : r'.Bounded size) (hle : r.Le r')
    (hne : r' ≠ r) : (r.filled size).length < (r'.filled size).length := by
  have hsub := filled_sublist hle size
  refine Nat.lt_of_le_of_ne hsub.length_le fun hlen => hne ?_
  have hge : r'.Le r := le_of_filled hr' (hsub.eq_of_length hlen ▸ List.Subset.refl _)
  exact hge.antisymm hle (hr'.size_eq.trans hr.size_eq.symm)

/-! ### Saturation -/

variable {edges : List (Nat × Spread)}

theorem mem_asksAlong : a ∈ asksAlong edges r ↔
    ∃ e ∈ edges, ∃ ahead, r.get? e.1 = some ahead ∧ a = (e.2.target, e.2.passed ahead) := by
  simp only [asksAlong, List.mem_filterMap, Option.map_eq_some_iff, eq_comm (b := a)]

theorem le_spreadOnce (edges : List (Nat × Spread)) (r : Reach) : r.Le (spreadOnce edges r) := by
  rw [spreadOnce_eq]
  exact le_joinAll _ _

theorem le_saturate (edges : List (Nat × Spread)) (fuel : Nat) (r : Reach) :
    r.Le (saturate edges fuel r) := by
  induction fuel generalizing r with
  | zero => exact .refl r
  | succ fuel ih =>
    rw [saturate]
    split
    · exact .refl r
    · exact (le_spreadOnce edges r).trans (ih _)

@[simp] theorem size_saturate (fuel : Nat) (r : Reach) : (saturate edges fuel r).size = r.size := by
  induction fuel generalizing r with
  | zero => rfl
  | succ fuel ih =>
    rw [saturate]
    split
    · rfl
    · rw [ih, spreadOnce_eq, size_joinAll]

theorem Holds.spreadOnce (h : r.Holds E Q)
    (hedge : ∀ e ∈ edges, ∀ ahead : BitSet, E e.1 → (∀ n, ahead.contains n = true → Q e.1 n) →
      E e.2.target ∧ ∀ n, (e.2.passed ahead).contains n = true → Q e.2.target n) :
    (LR1.spreadOnce edges r).Holds E Q := by
  rw [spreadOnce_eq]
  refine h.joinAll fun m A hmem => ?_
  obtain ⟨e, he, ahead, hget, ha⟩ := mem_asksAlong.mp hmem
  cases ha
  obtain ⟨hE, hQ⟩ := h e.1 ahead hget
  exact hedge e he ahead hE hQ

theorem Holds.saturate (h : r.Holds E Q)
    (hedge : ∀ e ∈ edges, ∀ ahead : BitSet, E e.1 → (∀ n, ahead.contains n = true → Q e.1 n) →
      E e.2.target ∧ ∀ n, (e.2.passed ahead).contains n = true → Q e.2.target n) :
    (LR1.saturate edges fuel r).Holds E Q := by
  induction fuel generalizing r with
  | zero => exact h
  | succ fuel ih =>
    rw [LR1.saturate]
    split
    · exact h
    · exact ih (h.spreadOnce hedge)

/-- Every spread has lookaheads below the bound. -/
def EdgesBounded (edges : List (Nat × Spread)) (size : Nat) : Prop :=
  ∀ e ∈ edges, e.2.target < size ∧ ∀ n, e.2.begins.contains n = true → n < size

theorem Bounded.spreadOnce (hr : r.Bounded size) (hedges : EdgesBounded edges size) :
    (LR1.spreadOnce edges r).Bounded size where
  size_eq := by rw [spreadOnce_eq, size_joinAll, hr.size_eq]
  lt := hr.lt.spreadOnce fun e he ahead _ hahead => ⟨trivial, fun n hn => by
    obtain ⟨m, hm, hn | ⟨-, rfl⟩⟩ := Spread.contains_passed.mp hn
    · exact (hedges e he).2 n hn
    · exact hahead n hm⟩

theorem spreadOnce_saturate (hr : r.Bounded size) (hedges : EdgesBounded edges size)
    (hfuel : size * (size + 1) < fuel + (r.filled size).length) :
    LR1.spreadOnce edges (LR1.saturate edges fuel r) = LR1.saturate edges fuel r := by
  induction fuel generalizing r with
  | zero =>
    have := length_filled_le r size
    omega
  | succ fuel ih =>
    rw [LR1.saturate]
    split
    · exact eq_of_beq ‹_›
    · have hr' := hr.spreadOnce hedges
      have hlt := length_filled_lt hr hr' (le_spreadOnce edges r) fun he =>
          ‹¬ _› (beq_iff_eq.mpr he)
      exact ih hr' (by omega)

theorem covers_of_fixed (hr : r.Bounded size) (hedges : EdgesBounded edges size)
    (hfix : LR1.spreadOnce edges r = r) (he : e ∈ edges) (hahead : r.get? e.1 = some ahead) :
    r.Covers e.2.target (e.2.passed ahead) := by
  rw [spreadOnce_eq] at hfix
  have := covers_joinAll (r := r) (mem_asksAlong.mpr ⟨e, he, ahead, hahead, rfl⟩)
    (hr.size_eq ▸ (hedges e he).1)
  rwa [hfix] at this

end Reach

end LR1

end AutoCool
