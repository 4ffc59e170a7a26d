import Mathlib.Order.Defs.Unbundled
import AutoCool.Proofs.Types.Order
import AutoCool.Proofs.Types.Table

/-!
# Ancestors

A table of types grows: types are made, their features change, and a type without a parent gets one
that is not sealed (`Types.Grown`). The types that are not declared are sealed, so only plain types
ever stand above others.

When no type stands above itself, `conforms` is a partial order of the plain types and `join` tells
how two of them stand to each other (`Types.Grown.conforms_and_join`): it has no answer when one is
properly above the other, it is `none` when nothing is above both, and else it is the least type
above both.
-/

namespace AutoCool

namespace Types

/-- The tables that are made type by type. What is done to the features of a type leaves its parent
and its seal. -/
inductive Grown : Types → Prop
  | empty : Grown {}
  | push {ts e} : Grown ts → e.parent = none → Grown (ts.push e).2
  | create {ts name t ts'} : Grown ts → ts.create name = .ok (t, ts') → Grown ts'
  | add {ts t ts'} : Grown ts → ts.add t = .ok ts' → Grown ts'
  | setParent {ts t p ts'} : Grown ts → ts.setParent t p = .ok ts' → Grown ts'
  | features {ts t f} : Grown ts → (∀ e : TypeEntry, (f e).parent = e.parent ∧
      (f e).isSealed = e.isSealed) →
    Grown (ts.modify t f)

/-- A type stands properly below another one. -/
def Under (ts : Types) : TypeId → TypeId → Prop :=
  Relation.TransGen fun t u => ts.parent? t = some u

/-- What the join of two plain types has to be. -/
structure IsJoin (ts : Types) (t u : TypeId) (r : Except Failure (Option TypeId)) : Prop where
  same : t = u → r = .ok (some t)
  undecided_iff : r = .error .outOfRange ↔ ts.Under t u ∨ ts.Under u t
  none_iff : r = .ok none ↔ ¬ ∃ c, ts.Sub t c ∧ ts.Sub u c
  least : ¬ (ts.Under t u ∨ ts.Under u t) → (∃ c, ts.Sub t c ∧ ts.Sub u c) →
    ∃ w, r = .ok (some w) ∧ TypeId.kind w = .plain ∧ ts.LeastAbove [t, u] w

variable {ts ts' : Types} {t u w : TypeId} {l l' : List TypeId}

/-! ### Tables that grow -/

/-- The types that are not declared are sealed, and no type has one of them as its parent. -/
structure Guarded (ts : Types) : Prop where
  size : 3 ≤ ts.entries.size
  isSealed : ∀ t : Nat, TypeId.kind t ≠ .plain → (ts.get t).isSealed = true
  plainParents : ts.PlainParents

theorem lt_of_kind_ne_plain {t : Nat} (h : TypeId.kind t ≠ .plain) : t < 3 := by
  by_contra hge
  refine h ?_
  rw [TypeId.kind, if_neg, if_neg, if_neg]
  all_goals
    rintro rfl
    exact hge (by decide)

theorem get_push : (ts.push e).2.get t = if t = ts.entries.size then e else ts.get t := by
  simp only [push, get, Array.getD_eq_getD_getElem?, Array.getElem?_push]
  split <;> rfl

theorem Guarded.empty : Guarded {} where
  size := Nat.le_refl 3
  isSealed t ht := by
    obtain rfl | rfl | rfl : t = 0 ∨ t = 1 ∨ t = 2 := by
      have := lt_of_kind_ne_plain ht
      omega
    all_goals rfl
  plainParents {t u} h := by
    rcases t with _ | _ | _ | t
    all_goals cases h

theorem Guarded.push (h : ts.Guarded) (he : e.parent = none) : (ts.push e).2.Guarded where
  size := by
    have := h.size
    simp only [Types.push, Array.size_push]
    omega
  isSealed t ht := by
    have hlt : t < ts.entries.size := Nat.lt_of_lt_of_le (lt_of_kind_ne_plain ht) h.size
    rw [get_push, if_neg (Nat.ne_of_lt hlt)]
    exact h.isSealed t ht
  plainParents {t u} hu := by
    rw [parent?, get_push] at hu
    split at hu
    · rw [he] at hu
      cases hu
    · exact h.plainParents hu

theorem Guarded.modify {f : TypeEntry → TypeEntry} (h : ts.Guarded)
    (hsealed : ∀ e, (f e).isSealed = e.isSealed)
    (hparent : ∀ e u, (f e).parent = some u → e.parent = some u ∨ TypeId.kind u = .plain) :
    (ts.modify t f).Guarded where
  size := by
    rw [size_modify]
    exact h.size
  isSealed u hu := by
    have hmod : (ts.get u).isSealed = ((ts.modify t f).get u).isSealed :=
      forall_modify (R := fun e e' => e.isSealed = e'.isSealed) (fun _ => rfl) (hsealed _).symm u
    exact hmod ▸ h.isSealed u hu
  plainParents {v u} hu := by
    have hmod : ((ts.modify t f).get v).parent = some u → (ts.get v).parent = some u ∨
        TypeId.kind u = .plain :=
      forall_modify (R := fun e e' => e'.parent = some u → e.parent = some u ∨ _) (fun _ => .inl)
        (hparent _ u) v
    exact (hmod hu).elim h.plainParents id

theorem Guarded.setParent (h : ts.Guarded) (hset : ts.setParent t p = .ok ts') : ts'.Guarded := by
  obtain ⟨-, hopen, rfl⟩ := setParent_eq_ok hset
  refine h.modify (fun _ => rfl) fun e u hu => .inr ?_
  cases hu
  by_contra hkind
  rw [h.isSealed p hkind] at hopen
  cases hopen

theorem Guarded.congr (h : ts.Guarded) (heq : ts'.entries = ts.entries) : ts'.Guarded := by
  have hget : ∀ t, ts'.get t = ts.get t := fun t => by rw [get, get, heq]
  refine ⟨heq ▸ h.size, fun t ht => hget t ▸ h.isSealed t ht, fun {t u} hu =>
    h.plainParents (t := t) ?_⟩
  rwa [parent?, hget] at hu

theorem Grown.guarded (h : ts.Grown) : ts.Guarded := by
  induction h with
  | empty => exact .empty
  | push _ he ih => exact ih.push he
  | @create ts name t ts' _ hcreate ih =>
    obtain ⟨-, rfl⟩ := create_map_eq_ok (congrArg (·.map (·.2)) hcreate)
    exact (ih.push (e := { name }) rfl).congr rfl
  | add _ hadd ih =>
    unfold Types.add at hadd
    dsimp only at hadd
    split at hadd
    · cases hadd
    · cases hadd
      exact ih.congr rfl
  | setParent _ hset ih => exact ih.setParent hset
  | features _ hf ih => exact ih.modify (fun e => (hf e).2) fun e u hu => .inl ((hf e).1 ▸ hu)

/-! ### The order -/

theorem Acyclic.under_iff (ha : ts.Acyclic) : ts.Under t u ↔ t ≠ u ∧ ts.Sub t u := by
  constructor
  · intro h
    refine ⟨?_, h.to_reflTransGen⟩
    rintro rfl
    exact ha t h
  · rintro ⟨hne, hs⟩
    exact (Relation.reflTransGen_iff_eq_or_transGen.1 hs).resolve_left (Ne.symm hne)

theorem Acyclic.conforms_iff (ha : ts.Acyclic) (hp : ts.PlainParents) (ht : TypeId.kind t = .plain)
    (hu : TypeId.kind u = .plain) : ∃ b, ts.conforms t u = .ok b ∧ (b = true ↔ ts.Sub t u) := by
  obtain ⟨b, hb⟩ := ha.conforms t u
  exact ⟨b, hb, reaches_iff hp ht hu hb⟩

theorem Acyclic.conforms_eq_true (ha : ts.Acyclic) (hp : ts.PlainParents)
    (ht : TypeId.kind t = .plain) (hu : TypeId.kind u = .plain) :
    ts.conforms t u = .ok true ↔ ts.Sub t u := by
  obtain ⟨b, hb, hiff⟩ := ha.conforms_iff hp ht hu
  rw [hb, ← hiff, Except.ok.injEq]

theorem Acyclic.isPartialOrder (ha : ts.Acyclic) (hp : ts.PlainParents) :
    IsPartialOrder { t // TypeId.kind t = .plain } fun t u => ts.conforms t.1 u.1 = .ok true where
  refl t := (ha.conforms_eq_true hp t.2 t.2).2 .refl
  trans t u v h h' := (ha.conforms_eq_true hp t.2 v.2).2
    (((ha.conforms_eq_true hp t.2 u.2).1 h).trans ((ha.conforms_eq_true hp u.2 v.2).1 h'))
  antisymm t u h h' := Subtype.ext
    (ha.antisymm ((ha.conforms_eq_true hp t.2 u.2).1 h) ((ha.conforms_eq_true hp u.2 t.2).1 h'))

/-! ### Joins -/

theorem agree_comm (hl : ∀ t ∈ l, TypeId.kind t = .plain) (hl' : ∀ t ∈ l', TypeId.kind t = .plain) :
    agree last l l' = agree last l' l := by
  induction l generalizing l' last with
  | nil => cases l' <;> rfl
  | cons x l ih =>
    cases l' with
    | nil => rfl
    | cons y l' =>
      have hx := hl x (.head _)
      have hy := hl' y (.head _)
      simp only [agree, TypeId.same_of_plain hx hy, TypeId.same_of_plain hy hx, beq_iff_eq]
      by_cases hxy : x = y
      · subst hxy
        rw [if_pos rfl, if_pos rfl]
        exact ih (fun t ht => hl t (.tail _ ht)) fun t ht => hl' t (.tail _ ht)
      · rw [if_neg hxy, if_neg (Ne.symm hxy)]

theorem Acyclic.join_comm (ha : ts.Acyclic) (hp : ts.PlainParents) (ht : TypeId.kind t = .plain)
    (hu : TypeId.kind u = .plain) : ts.join u (some t) = ts.join t (some u) := by
  obtain ⟨l, hc, hl⟩ := ha.chain t
  obtain ⟨l', hc', hl'⟩ := ha.chain u
  by_cases htu : t = u
  · rw [htu]
  · simp only [join, TypeId.same_of_plain ht hu, TypeId.same_of_plain hu ht, beq_iff_eq, if_neg htu,
      if_neg (Ne.symm htu),
      hc, hc', bind, Except.bind]
    exact agree_comm (hl'.plain hp hu) (hl.plain hp ht)

theorem join_self (ht : TypeId.kind t = .plain) : ts.join t (some t) = .ok (some t) := by
  simp only [join, TypeId.same_of_plain ht ht, beq_self_eq_true, if_true]
  rfl

/-- A join that was found for two different types: their chains part after what they have in common,
which holds every type above both. -/
theorem join_parts (hp : ts.PlainParents) (ht : TypeId.kind t = .plain)
    (hu : TypeId.kind u = .plain) (htu : t ≠ u)
    (h : ts.join t (some u) = .ok r) :
    ∃ common x rest y rest', ts.Chain t (common ++ x :: rest) ∧
      ts.Chain u (common ++ y :: rest') ∧ x ≠ y ∧
      r = common.getLast? ∧ ∀ c, ts.Sub t c → ts.Sub u c → c ∈ common := by
  rcases join_eq_ok h with ⟨hsame, -⟩ | ⟨-, l, l', hl, hl', hagree⟩
  · rw [TypeId.same_of_plain ht hu, beq_iff_eq] at hsame
    exact absurd hsame htu
  · obtain ⟨common, x, rest, y, rest', rfl, rfl, hne, hr⟩ :=
      agree_eq_ok (hl.plain hp ht) (hl'.plain hp hu) hagree
    refine ⟨common, x, rest, y, rest', hl, hl', hne, by rw [hr, Option.or_none], fun c hc hc' => ?_⟩
    obtain ⟨m, hm, hpre⟩ := hl.of_sub hc
    obtain ⟨m', hm', hpre'⟩ := hl'.of_sub hc'
    cases hm.unique hm'
    exact (prefix_of_parting hne hpre hpre').subset hm.mem_self

theorem no_common_of_join (hp : ts.PlainParents) (ht : TypeId.kind t = .plain)
    (hu : TypeId.kind u = .plain) (h : ts.join t (some u) = .ok none) :
    ¬ ∃ c, ts.Sub t c ∧ ts.Sub u c := by
  have htu : t ≠ u := by
    rintro rfl
    rw [join_self ht] at h
    cases h
  obtain ⟨common, x, rest, y, rest', -, -, -, hnone, hcommon⟩ := join_parts hp ht hu htu h
  rintro ⟨c, hc, hc'⟩
  have hmem := hcommon c hc hc'
  rw [List.getLast?_eq_none_iff.1 hnone.symm] at hmem
  cases hmem

theorem Acyclic.incomparable_of_join (ha : ts.Acyclic) (hp : ts.PlainParents)
    (ht : TypeId.kind t = .plain) (hu : TypeId.kind u = .plain) (h : ts.join t (some u) = .ok r) :
    ¬ (ts.Under t u ∨ ts.Under u t) := by
  rw [ha.under_iff, ha.under_iff]
  intro hor
  have htu : t ≠ u := hor.elim (·.1) (·.1.symm)
  obtain ⟨common, x, rest, y, rest', hl, hl', hne, -, hcommon⟩ := join_parts hp ht hu htu h
  -- the last type of a chain is not among what comes before it
  have hlast : ∀ {s z rest}, ts.Chain s (common ++ z :: rest) → s ∉ common := by
    intro s z rest hs hmem
    obtain ⟨before, after, rfl⟩ := List.append_of_mem hmem
    have hpre : ts.Chain s (before ++ [s]) := hs.of_prefix (by simp)
    simpa using congrArg List.length (hpre.unique hs)
  rcases hor with ⟨-, hs⟩ | ⟨-, hs⟩
  · exact hlast hl' (hcommon u hs .refl)
  · exact hlast hl (hcommon t .refl hs)

theorem Acyclic.isJoin (ha : ts.Acyclic) (hp : ts.PlainParents) (ht : TypeId.kind t = .plain)
    (hu : TypeId.kind u = .plain) : ts.IsJoin t u (ts.join t (some u)) := by
  have herror : ∀ {e}, ts.join t (some u) = .error e → e = .outOfRange ∧
      (ts.Under t u ∨ ts.Under u t) := by
    intro e he
    obtain ⟨he, hne, hor⟩ := join_error hp ha ht hu he
    rw [ha.under_iff, ha.under_iff]
    exact ⟨he, hor.imp (⟨hne, ·⟩) (⟨hne.symm, ·⟩)⟩
  refine ⟨?_, ⟨fun h => (herror h).2, fun h => ?_⟩, ⟨no_common_of_join hp ht hu, fun h => ?_⟩,
    fun h hc => ?_⟩
  · rintro rfl
    exact join_self ht
  · cases hj : ts.join t (some u) with
    | ok r => exact absurd h (ha.incomparable_of_join hp ht hu hj)
    | error e => rw [(herror hj).1]
  · cases hj : ts.join t (some u) with
    | error e =>
      -- the one that is properly above the other is above both
      rcases (herror hj).2 with hs | hs
      · exact absurd ⟨u, hs.to_reflTransGen, .refl⟩ h
      · exact absurd ⟨t, .refl, hs.to_reflTransGen⟩ h
    | ok r =>
      cases r with
      | none => rfl
      | some w =>
        have hw := leastAbove_of_join hp ht hu hj
        exact absurd ⟨w, hw.above t (by simp), hw.above u (by simp)⟩ h
  · cases hj : ts.join t (some u) with
    | error e => exact absurd (herror hj).2 h
    | ok r =>
      cases r with
      | none => exact absurd hc (no_common_of_join hp ht hu hj)
      | some w =>
        have hw := leastAbove_of_join hp ht hu hj
        exact ⟨w, rfl, (hw.above t (by simp)).plain hp ht, hw⟩

/-- In a table that was made type by type, and in which no type stands above itself, the plain types
are ordered by conformance, which is the closure of the relation to the parent, and their joins are
right, whichever of the two comes first. -/
theorem Grown.conforms_and_join (hts : ts.Grown) (ha : ts.Acyclic) :
    (∀ t u, TypeId.kind t = .plain → TypeId.kind u = .plain →
      ∃ b, ts.conforms t u = .ok b ∧ (b = true ↔ ts.Sub t u)) ∧
    (IsPartialOrder { t // TypeId.kind t = .plain } fun t u => ts.conforms t.1 u.1 = .ok true) ∧
    ∀ t u, TypeId.kind t = .plain → TypeId.kind u = .plain →
      ts.IsJoin t u (ts.join t (some u)) ∧ ts.join u (some t) = ts.join t (some u) := by
  have hp : ts.PlainParents := hts.guarded.plainParents
  exact ⟨fun _ _ => ha.conforms_iff hp, ha.isPartialOrder hp, fun _ _ ht hu =>
    ⟨ha.isJoin hp ht hu, ha.join_comm hp ht hu⟩⟩

end Types

/-! ### A family and a type that stands alone -/

namespace Sample.Family

def object : TypeId := 3

def parent : TypeId := 4

def first : TypeId := 5

def second : TypeId := 6

def alone : TypeId := 7

/-- The types before they have parents. -/
def bare : Types :=
  ["Object", "Parent", "First", "Second", "Alone"].foldl (fun ts name => (ts.push { name }).2) {}

def table : Types :=
  [(parent, object), (first, parent), (second, parent)].foldl
    (fun ts x => ts.modify x.1 fun e => { e with parent := some x.2 }) bare

theorem bare_grown : bare.Grown := .push (.push (.push (.push (.push .empty rfl) rfl) rfl) rfl) rfl

theorem table_grown : table.Grown :=
  .setParent (t := second) (p := parent) (.setParent (t := first) (p := parent)
    (.setParent (t := parent) (p := object) bare_grown rfl) rfl) rfl

theorem table_acyclic : table.Acyclic := Types.acyclic_of_parent_lt (by decide)

theorem conforms_and_join_family :
    table.Grown ∧ table.Acyclic ∧ table.join first (some second) = .ok (some parent) ∧
    table.LeastAbove [first, second] parent ∧ table.join first (some object) = .error .outOfRange ∧
    (table.Under first object ∨ table.Under object first) ∧
    table.join first (some alone) = .ok none ∧ ¬ ∃ c, table.Sub first c ∧ table.Sub alone c := by
  obtain ⟨-, -, hjoin⟩ := Types.Grown.conforms_and_join table_grown table_acyclic
  have hleast := (hjoin first second rfl rfl).1
  have hundecided := (hjoin first object rfl rfl).1.undecided_iff
  have hnone := (hjoin first alone rfl rfl).1.none_iff
  refine ⟨table_grown, table_acyclic, rfl, ?_, rfl, hundecided.1 rfl, rfl, hnone.1 rfl⟩
  have hcommon : ∃ c, table.Sub first c ∧ table.Sub second c :=
    ⟨parent, .of_parent rfl, .of_parent rfl⟩
  obtain ⟨w, hw, -, hleast⟩ := hleast.least (fun h => by cases hleast.undecided_iff.2 h) hcommon
  cases hw
  exact hleast

end Sample.Family

end AutoCool
