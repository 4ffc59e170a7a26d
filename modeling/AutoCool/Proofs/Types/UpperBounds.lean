import AutoCool.Proofs.Types.Bounds

/-!
# Upper bounds alone

A variable that has upper bounds only, all of them plain, gets the least of them. The search
compares each bound with the least one so far and stops at the first that excludes it; since the
types above a type form a chain, it finds a least bound exactly when any two are comparable. So
neither the order of the bounds nor how often each was recorded matters
(`Types.Grown.infers_least`).
-/

namespace AutoCool.Types

/-- The least of some types in the order of conformance. -/
structure Least (ts : Types) (types : List TypeId) (t : TypeId) : Prop where
  mem : t ∈ types
  conforms : ∀ u ∈ types, ts.conforms t u = .ok true

/-- Of any two of some types one conforms to the other. -/
def Comparable (ts : Types) (types : List TypeId) : Prop :=
  ∀ t ∈ types, ∀ u ∈ types, ts.conforms t u = .ok true ∨ ts.conforms u t = .ok true

/-- What some upper bounds leave for a variable: the least of them, or nothing is known yet. -/
def Leaves (ts : Types) (types : List TypeId) (t : TypeId) : Prop :=
  ts.Least types t ∨ ¬ (types ≠ [] ∧ ts.Comparable types) ∧ t = TypeId.auto

variable {ts : Types} {types types' : List TypeId} {t u : TypeId} {x v : Variable}

/-- Only which types are among the bounds matters. -/
theorem Leaves.congr (hmem : ∀ t, t ∈ types' ↔ t ∈ types) (h : ts.Leaves types t) :
    ts.Leaves types' t := by
  have hcomparable : ts.Comparable types' ↔ ts.Comparable types := by simp only [Comparable, hmem]
  have hnil : types' = [] ↔ types = [] := by simp only [List.eq_nil_iff_forall_not_mem, hmem]
  rcases h with h | ⟨hnone, rfl⟩
  · exact .inl ⟨(hmem t).2 h.mem, fun u hu => h.conforms u ((hmem u).1 hu)⟩
  · exact .inr ⟨by rwa [ne_eq, hnil, hcomparable], rfl⟩

section

variable (ha : ts.Acyclic) (hp : ts.PlainParents) (htypes : ∀ u ∈ types, TypeId.kind u = .plain)
include ha hp htypes

theorem Least.comparable (h : ts.Least types t) : types ≠ [] ∧ ts.Comparable types := by
  have ht := htypes t h.mem
  refine ⟨List.ne_nil_of_mem h.mem, fun u hu u' hu' => ?_⟩
  have hbelow := (ha.conforms_eq_true hp ht (htypes u hu)).1 (h.conforms u hu)
  have hbelow' := (ha.conforms_eq_true hp ht (htypes u' hu')).1 (h.conforms u' hu')
  exact (hbelow.comparable hbelow').imp (ha.conforms_eq_true hp (htypes u hu) (htypes u' hu')).2
    (ha.conforms_eq_true hp (htypes u' hu') (htypes u hu)).2

theorem Least.unique (h : ts.Least types t) (h' : ts.Least types u) : t = u := by
  have hkinds := And.intro (htypes t h.mem) (htypes u h'.mem)
  exact ha.antisymm ((ha.conforms_eq_true hp hkinds.1 hkinds.2).1 (h.conforms u h'.mem))
    ((ha.conforms_eq_true hp hkinds.2 hkinds.1).1 (h'.conforms t h.mem))

/-- What is left is known when it is the least bound. -/
theorem Leaves.known_iff (h : ts.Leaves types t) :
    (t != TypeId.auto) = true ↔ types ≠ [] ∧ ts.Comparable types := by
  rcases h with h | ⟨hnone, rfl⟩
  · have hne : t ≠ TypeId.auto := by
      rintro rfl
      cases htypes _ h.mem
    exact iff_of_true (bne_iff_ne.2 hne) (h.comparable ha hp htypes)
  · exact iff_of_false (by simp) hnone

theorem Leaves.unique (h : ts.Leaves types t) (h' : ts.Leaves types u) : t = u := by
  rcases h with h | ⟨hnone, rfl⟩
  · rcases h' with h' | ⟨hnone, -⟩
    · exact h.unique ha hp htypes h'
    · exact absurd (h.comparable ha hp htypes) hnone
  · rcases h' with h' | ⟨-, rfl⟩
    · exact absurd (h'.comparable ha hp htypes) hnone
    · rfl

/-- The search through upper bounds ends with what they leave; what is wrong stands for nothing. -/
theorem leaves_of_leastUpper :
    ∃ least, ts.leastUpper none (types.map some) = .ok least ∧
      ts.Leaves types (least.elim TypeId.auto fun t =>
        if TypeId.kind t == .error then TypeId.auto else t) := by
  cases types with
  | nil => exact ⟨none, rfl, .inr ⟨by simp, rfl⟩⟩
  | cons u types =>
    rcases leastUpper_plain ha hp htypes with ⟨w, hw, hleast,
      hbelow⟩ | ⟨⟨w, hw, w', hw', hex⟩, herror⟩
    · refine ⟨some w, hleast, .inl ?_⟩
      have hkind := htypes w hw
      rw [Option.elim_some, hkind, if_neg (by decide)]
      exact ⟨hw, fun u hu => (ha.conforms_eq_true hp hkind (htypes u hu)).2 (hbelow u hu)⟩
    · refine ⟨some TypeId.error, herror, .inr ⟨fun hall => hex ?_, rfl⟩⟩
      exact (hall.2 w hw w' hw').imp (ha.conforms_eq_true hp (htypes w hw) (htypes w' hw')).1
        (ha.conforms_eq_true hp (htypes w' hw') (htypes w hw)).1

end

theorem infer_uppers (ha : ts.Acyclic) (hp : ts.PlainParents) (hv : v.inferred = false)
    (hu : v.Unbounded)
    (htypes : ∀ t ∈ types, TypeId.kind t = .plain) : ∃ t, ts.Leaves types t ∧
      ts.infer ((types.map Bound.upper).foldl Variable.bound v) =
        .ok (t != TypeId.auto, { v with type := t, inferred := t != TypeId.auto }) := by
  have hupper : (types.map Bound.upper).filterMap Bound.upper? = types := by
    rw [List.filterMap_map]
    refine (List.filterMap_congr fun t ht => ?_).trans List.filterMap_some
    have hne : t ≠ TypeId.auto := by
      rintro rfl
      cases htypes _ ht
    simp [Bound.upper?, hne]
  have hlower : (types.map Bound.upper).filterMap Bound.lower? = [] := by
    simp [List.filterMap_map, Bound.lower?]
  obtain ⟨least, hleast, hleaves⟩ := leaves_of_leastUpper ha hp htypes
  refine ⟨_, hleaves, ?_⟩
  rw [Variable.foldl_bound hv, hupper, hlower, hu.1, hu.2]
  obtain ⟨name, type, inferred, upper, lower⟩ := v
  obtain ⟨rfl, rfl⟩ := hu
  cases hv
  simp only [infer, inferred, List.nil_append, hleast, joinLower, List.map_nil, between]
  cases least <;> rfl

/-- A variable with plain upper bounds only becomes known exactly when there is a bound and any two
bounds are comparable, and then it has the least of them as its type. The same types in another
order or recorded more often give the same. -/
theorem Grown.infers_least (hts : ts.Grown) (ha : ts.Acyclic) (hv : v.inferred = false)
    (hu : v.Unbounded)
    (htypes : ∀ t ∈ types, TypeId.kind t = .plain) :
    ∃ known type, ts.infer ((types.map Bound.upper).foldl Variable.bound v) =
        .ok (known, { v with type, inferred := known }) ∧
      (known = true ↔ types ≠ [] ∧ ts.Comparable types) ∧ (known = true → ts.Least types type) ∧
      (known = false → type = TypeId.auto) ∧
      ∀ types' : List TypeId, (∀ t, t ∈ types' ↔ t ∈ types) →
        ts.infer ((types'.map Bound.upper).foldl Variable.bound v) =
        .ok (known, { v with type, inferred := known }) := by
  have hp : ts.PlainParents := hts.guarded.plainParents
  obtain ⟨t, ht, hinfer⟩ := infer_uppers ha hp hv hu htypes
  have hknown := ht.known_iff ha hp htypes
  refine ⟨_, t, hinfer, hknown, fun h => ?_, fun h => by simpa using h, fun types' hmem => ?_⟩
  · exact ht.resolve_right fun hnone => hnone.1 (hknown.1 h)
  · obtain ⟨t', ht', hinfer'⟩ := infer_uppers ha hp hv hu fun t ht => htypes t ((hmem t).1 ht)
    obtain rfl := ht.unique ha hp htypes (ht'.congr fun t => (hmem t).symm)
    exact hinfer'

end AutoCool.Types

namespace AutoCool.Sample.Family

/-- The least bound stands in the middle, and one bound is recorded twice. -/
theorem infers_least_chain : table.Grown ∧ table.Acyclic ∧
    table.Least [object, first, parent, object] first ∧
    ∀ types : List TypeId, (∀ t, t ∈ types ↔ t ∈ [object, first, parent, object]) →
      table.infer (bounded (types.map Bound.upper)) = .ok
        (true, { name := "x", type := first, inferred := true }) := by
  obtain ⟨known, type, hinfer, -, hleast, -, hsame⟩ :=
    Types.Grown.infers_least table_grown table_acyclic
    (v := .ofType "x" TypeId.auto) rfl ⟨rfl, rfl⟩
    (by decide : ∀ t ∈ [object, first, parent, object], TypeId.kind t = .plain)
  have heval : table.infer (bounded ([object, first, parent, object].map Bound.upper)) =
      .ok (true, { name := "x", type := first, inferred := true }) := rfl
  cases hinfer.symm.trans heval
  exact ⟨table_grown, table_acyclic, hleast rfl, hsame⟩

-- the search ends at the second bound, which excludes the first
example : table.infer (bounded ([first, second, object].map Bound.upper)) =
    .ok (false, { name := "x", type := TypeId.auto, inferred := false }) := rfl

end AutoCool.Sample.Family
