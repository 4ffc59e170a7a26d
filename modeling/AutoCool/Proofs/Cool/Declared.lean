import AutoCool.Proofs.Cool.Declaring
import AutoCool.Proofs.Types.Order

/-!
# Tables of declared types

What follows for the order of types when a table is what a program declares: all chains of ancestors
that end do so in the type above all others, and nothing stands under the basic types or under those
that are not declared.
-/

namespace AutoCool.Cool

variable {p : Program} {ts : Types} {t u : TypeId} {name : String} {i : Nat} {c : ClassDecl}

theorem kind_class (i : Nat) : TypeId.kind (8 + i) = .plain := by
  have hne : ∀ u : Nat, u < 8 → 8 + i ≠ u := fun u hu => by omega
  simp [TypeId.kind, TypeId.self, TypeId.auto, TypeId.error, hne]

section Tables

variable (h : Declared p ts)

include h

theorem Declared.builtin_or_class (ht : t < ts.entries.size) :
    t < 8 ∨ ∃ (i : Nat) (c : ClassDecl), p.classes[i]? = some c ∧ t = 8 + i := by
  rw [h.size_eq] at ht
  rcases Nat.lt_or_ge t 8 with hlt | hge
  · exact .inl hlt
  · have hi : t - 8 < p.classes.length := Nat.sub_lt_left_of_lt_add hge ht
    exact .inr ⟨t - 8, _, List.getElem?_eq_getElem hi, (Nat.add_sub_of_le hge).symm⟩

theorem Declared.find_class (hc : p.classes[i]? = some c) : ts.find c.name.text = .ok (8 + i) :=
  find_of_classes h.context_eq h.names_nodup hc

theorem Declared.mem_of_find (hfind : ts.find name = .ok t) :
    (name, t) ∈ Builtin.types.context ∨
      ∃ (i : Nat) (c : ClassDecl), p.classes[i]? = some c ∧ name = c.name.text ∧ t = 8 + i := by
  unfold Types.find at hfind
  split at hfind
  · next u hu =>
    cases hfind
    obtain ⟨l1, l2, hl, -⟩ := List.lookup_eq_some_iff.1 hu
    have hmem : (name, t) ∈ ts.context := by simp [hl]
    rw [h.context_eq] at hmem
    rcases List.mem_append.1 hmem with hmem | hmem
    · exact .inl hmem
    · obtain ⟨⟨c, j⟩, hj, heq⟩ := List.mem_map.1 hmem
      cases heq
      obtain ⟨hle, hc⟩ := List.mem_zipIdx_iff_le_and_getElem?_sub.1 hj
      exact .inr ⟨_, c, hc, rfl, (Nat.add_sub_of_le hle).symm⟩
  · cases hfind

theorem Declared.find_lt (hfind : ts.find name = .ok t) : t < ts.entries.size := by
  rw [h.size_eq]
  rcases h.mem_of_find hfind with hmem | ⟨i, c, hc, rfl, rfl⟩
  · have hlt : ∀ x ∈ Builtin.types.context, x.2 < 8 := by decide
    exact Nat.lt_add_right _ (hlt _ hmem)
  · exact Nat.add_lt_add_left (List.getElem?_eq_some_iff.1 hc).1 8

theorem Declared.builtin_ne_class (hc : p.classes[i]? = some c) :
    ∀ n ∈ Builtin.types.context.map (·.1), n ≠ c.name.text := by
  have hnodup := h.names_nodup
  rw [h.context_eq, List.map_append, List.nodup_append] at hnodup
  refine fun n hn => hnodup.2.2 n hn _
    (List.mem_map.2 ⟨(c.name.text, 8 + i), List.mem_map.2 ⟨(c, 8 + i), ?_, rfl⟩, rfl⟩)
  rw [List.mem_zipIdx_iff_le_and_getElem?_sub, Nat.add_sub_cancel_left]
  exact ⟨Nat.le_add_right 8 i, hc⟩

theorem Declared.find_ne_auto : ∀ c ∈ p.classes, ts.find c.name.text ≠ .ok TypeId.auto := by
  intro c hc hfind
  obtain ⟨i, hi⟩ := List.mem_iff_getElem?.1 hc
  have heq : 8 + i = 1 := Except.ok.inj ((h.find_class hi).symm.trans hfind)
  omega

theorem Declared.kind_of_find (hfind : ts.find name = .ok t) :
    TypeId.kind t =
      if name = "SELF_TYPE" then .self else if name = "AUTO_TYPE" then .auto else .plain := by
  rcases h.mem_of_find hfind with hmem | ⟨i, c, hc, rfl, rfl⟩
  · have hall : ∀ x ∈ Builtin.types.context, TypeId.kind x.2 =
        if x.1 = "SELF_TYPE" then .self else if x.1 = "AUTO_TYPE" then .auto else .plain := by
          decide
    exact hall _ hmem
  · have hnew := h.builtin_ne_class hc
    rw [kind_class, if_neg (hnew _ (by decide)).symm, if_neg (hnew _ (by decide)).symm]

theorem Declared.plain_of_find (hfind : ts.find name = .ok t) (hself : name ≠ "SELF_TYPE")
    (hauto : name ≠ "AUTO_TYPE") : TypeId.kind t = .plain := by
  rw [h.kind_of_find hfind, if_neg hself, if_neg hauto]

theorem Declared.parent_builtin (ht : t < 8) :
    ts.parent? t = if t ∈ [Builtin.io, Builtin.int, Builtin.string, Builtin.bool] then some
      Builtin.object else none := by
  have hall : ∀ t < 8, Builtin.built.parent? t =
      if t ∈ [Builtin.io, Builtin.int, Builtin.string, Builtin.bool] then some
        Builtin.object else none := by decide
  rw [Types.parent?, h.builtin t ht]
  exact hall t ht

theorem Declared.parent_class (hc : p.classes[i]? = some c) :
    ts.parent? (8 + i) = some (parentOf ts c) := by
  rw [Types.parent?, (h.classes i c hc).get_eq]
  rfl

theorem Declared.parent_open (hp : ts.parent? t = some u) : (ts.get u).isSealed = false := by
  rcases h.builtin_or_class (Types.lt_size_of_parent hp) with ht | ⟨i, c, hc, rfl⟩
  · rw [h.parent_builtin ht] at hp
    split at hp
    · cases hp
      rw [h.builtin Builtin.object (by decide)]
      decide
    · cases hp
  · rw [h.parent_class hc] at hp
    cases hp
    exact (h.classes i c hc).parent_open

theorem Declared.parent_not_mem (hp : ts.parent? t = some u) :
    u ∉ [TypeId.self, TypeId.auto, TypeId.error, Builtin.int, Builtin.string, Builtin.bool] := by
  intro hu
  have hsealed : ∀ u ∈ [TypeId.self, TypeId.auto, TypeId.error, Builtin.int, Builtin.string,
      Builtin.bool],
      u < 8 ∧ (Builtin.built.get u).isSealed = true := by decide
  obtain ⟨hlt, hs⟩ := hsealed u hu
  have hopen := h.parent_open hp
  rw [h.builtin u hlt, hs] at hopen
  cases hopen

theorem Declared.plainParents : ts.PlainParents := by
  intro t u hp
  have hu := h.parent_not_mem hp
  simp only [List.mem_cons, not_or] at hu
  simp [TypeId.kind, hu.1, hu.2.1, hu.2.2.1]

theorem Declared.hierarchy (ha : ts.Acyclic) : ts.Hierarchy :=
  ⟨ha, h.plainParents, h.parent_builtin (by decide)⟩

theorem Declared.eq_of_sub_basic (hu : u ∈ [Builtin.int, Builtin.string, Builtin.bool])
    (hs : ts.Sub t u) : t = u := by
  rcases Relation.ReflTransGen.cases_tail hs with heq | ⟨v, -, hv⟩
  · exact heq.symm
  · have hnot := h.parent_not_mem hv
    simp only [List.mem_cons, not_or] at hnot hu
    simp_all

theorem Declared.parent_lt (hp : ts.parent? t = some u) : u < ts.entries.size := by
  rcases h.builtin_or_class (Types.lt_size_of_parent hp) with ht | ⟨i, c, hc, rfl⟩
  · rw [h.parent_builtin ht] at hp
    split at hp
    · cases hp
      rw [h.size_eq]
      exact Nat.lt_add_right _ (by decide)
    · cases hp
  · rw [h.parent_class hc] at hp
    cases hp
    unfold parentOf
    split
    · next q hq =>
      obtain ⟨v, hv⟩ := (h.classes i c hc).parent_found q hq
      rw [Types.named_of_find hv]
      exact h.find_lt hv
    · rw [h.size_eq]
      exact Nat.lt_add_right _ (by decide)

theorem Declared.exists_parent (ht : t < ts.entries.size) (hplain : TypeId.kind t = .plain)
    (hobject : t ≠ Builtin.object) : ∃ u, ts.parent? t = some u := by
  rcases h.builtin_or_class ht with hlt | ⟨i, c, hc, rfl⟩
  · have hall : ∀ t < 8, TypeId.kind t = .plain → t ≠ Builtin.object →
        t ∈ [Builtin.io, Builtin.int, Builtin.string, Builtin.bool] := by decide
    exact ⟨Builtin.object, by rw [h.parent_builtin hlt, if_pos (hall t hlt hplain hobject)]⟩
  · exact ⟨_, h.parent_class hc⟩

/-! ## The features of types -/

variable {m : Method} {x : Attribute} {f : Feature}

theorem Declared.method_cases (hm : m ∈ (ts.get t).methods) :
    (t, m) ∈ Builtin.methods ∨ ∃ (i : Nat) (c : ClassDecl), p.classes[i]? = some c ∧ t = 8 + i ∧
    ∃ f ∈ c.features, f.method? ts = some m := by
  rcases h.builtin_or_class (Types.lt_size_of_ne_default
    (List.ne_nil_of_mem hm <| congrArg TypeEntry.methods ·)) with ht | ⟨i, c, hc, rfl⟩
  · rw [h.builtin t ht] at hm
    have hall : ∀ t < 8, ∀ m ∈ (Builtin.built.get t).methods, (t, m) ∈ Builtin.methods := by decide
    exact .inl (hall t ht m hm)
  · rw [(h.classes i c hc).get_eq] at hm
    exact .inr ⟨i, c, hc, rfl, List.mem_filterMap.1 hm⟩

theorem Declared.attribute_cases (hx : x ∈ (ts.get t).attributes) :
    ∃ (i : Nat) (c : ClassDecl), p.classes[i]? = some c ∧ t = 8 + i ∧ ∃ f ∈ c.features,
    f.attribute? ts = some x := by
  rcases h.builtin_or_class (Types.lt_size_of_ne_default
    (List.ne_nil_of_mem hx <| congrArg TypeEntry.attributes ·)) with ht | ⟨i, c, hc, rfl⟩
  · rw [h.builtin t ht] at hx
    have hall : ∀ t < 8, (Builtin.built.get t).attributes = [] := by decide
    rw [hall t ht] at hx
    cases hx
  · rw [(h.classes i c hc).get_eq] at hx
    exact ⟨i, c, hc, rfl, List.mem_filterMap.1 hx⟩

theorem Declared.distinct (t : TypeId) : Distinct (ts.get t) := by
  by_cases ht : t < ts.entries.size
  · rcases h.builtin_or_class ht with hlt | ⟨i, c, hc, rfl⟩
    · rw [h.builtin t hlt]
      have hall : ∀ t < 8, ((Builtin.built.get t).attributes.map (·.name)).Nodup ∧
          ((Builtin.built.get t).methods.map (·.name)).Nodup := by decide
      exact hall t hlt
    · exact (h.classes i c hc).distinct
  · rw [Types.get, Array.getD_eq_getD_getElem?, Array.getElem?_eq_none (Nat.le_of_not_lt ht)]
    exact ⟨.nil, .nil⟩

end Tables

theorem find?_of_nodup {α : Type} {name : α → String} {l : List α} {y : α} (hl : (l.map name).Nodup)
    (hy : y ∈ l) : l.find? (name · == name y) = some y := by
  induction l with
  | nil => cases hy
  | cons z l ih =>
    rw [List.map_cons, List.nodup_cons] at hl
    rcases List.mem_cons.1 hy with rfl | hy
    · simp
    · have hne : name z ≠ name y := fun h => hl.1 (h ▸ List.mem_map.2 ⟨y, hy, rfl⟩)
      rw [List.find?_cons_of_neg (by simpa using hne), ih hl.2 hy]

theorem findMethod_own (h : Distinct (ts.get t)) (hm : m ∈ (ts.get t).methods) :
    ts.findMethod t m.name = .ok (t, m) := by
  rw [Types.findMethod, Types.height, Types.climb, find?_of_nodup h.2 hm]
  rfl

theorem findAttribute_own (h : Distinct (ts.get t)) (hx : x ∈ (ts.get t).attributes) :
    ts.findAttribute t x.name = .ok (t, x) := by
  rw [Types.findAttribute, Types.height, Types.climb, find?_of_nodup h.1 hx]
  rfl

theorem findAttribute_own_iff (h : Distinct (ts.get t)) :
    ts.findAttribute t name = .ok (t, x) ↔ x ∈ (ts.get t).attributes ∧ x.name = name := by
  constructor
  · intro hfind
    have hx := Types.find?_of_findAttribute hfind
    have hname := List.find?_some hx
    exact ⟨List.mem_of_find?_eq_some hx, beq_iff_eq.1 hname⟩
  · rintro ⟨hx, rfl⟩
    exact findAttribute_own h hx

theorem DeclaredClass.mem_methods (h : DeclaredClass ts t c) (hf : f ∈ c.features)
    (hm : f.method? ts = some m) : m ∈ (ts.get t).methods := by
  rw [h.get_eq]
  exact List.mem_append_right _ (List.mem_filterMap.2 ⟨f, hf, hm⟩)

theorem DeclaredClass.mem_attributes (h : DeclaredClass ts t c) (hf : f ∈ c.features)
    (hx : f.attribute? ts = some x) : x ∈ (ts.get t).attributes := by
  rw [h.get_eq]
  exact List.mem_append_right _ (List.mem_filterMap.2 ⟨f, hf, hx⟩)

theorem DeclaredClass.findMethod_eq (h : DeclaredClass ts t c) (hf : f ∈ c.features)
    (hm : f.method? ts = some m) :
    ts.findMethod t m.name = .ok (t, m) := findMethod_own h.distinct (h.mem_methods hf hm)

theorem DeclaredClass.findAttribute_eq (h : DeclaredClass ts t c) (hf : f ∈ c.features)
    (hx : f.attribute? ts = some x) :
    ts.findAttribute t x.name = .ok (t, x) := findAttribute_own h.distinct (h.mem_attributes hf hx)

end AutoCool.Cool
