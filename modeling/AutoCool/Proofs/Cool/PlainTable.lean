import AutoCool.Proofs.Cool.Declared
import AutoCool.Proofs.Cool.Typing

/-!
# Tables without special types

A program that names neither the type of the object itself nor a type that is to be inferred
declares a table in which all types are declared ones. There what the table answers agrees with the
order of types and with the rules for methods.
-/

namespace AutoCool.Cool

variable {ts : Types} {t : TypeId} {name : String}

/-- A type that is declared, not one of those that stand for something else. -/
def IsDeclared (ts : Types) (t : TypeId) : Prop := TypeId.kind t = .plain ∧ t < ts.entries.size

theorem IsDeclared.ownType_eq (h : IsDeclared ts t) : ownType cls t = t := by
  simp [ownType, h.1]

/-- A table in which only declared types are used, save as results that stand for the object
itself. -/
structure PlainTable (ts : Types) : Prop where
  parent_declared : ∀ {t u}, ts.parent? t = some u → IsDeclared ts u
  top : ∀ {t}, IsDeclared ts t → ts.parent? t = none → t = Builtin.object
  eq_of_sub_basic : ∀ {t u}, u ∈ [Builtin.int, Builtin.string, Builtin.bool] → ts.Sub t u → t = u
  builtin_declared : ∀ t ∈ [Builtin.object, Builtin.int, Builtin.string, Builtin.bool],
    IsDeclared ts t
  find_declared : ∀ {name t}, ts.find name = .ok t → name ≠ "SELF_TYPE" → name ≠ "AUTO_TYPE" →
    IsDeclared ts t
  param_declared : ∀ {t m}, m ∈ (ts.get t).methods → ∀ u ∈ m.paramTypes, IsDeclared ts u
  result_declared : ∀ {t m}, m ∈ (ts.get t).methods → IsDeclared ts m.returnType ∨
    TypeId.kind m.returnType = .self

variable {p : Program} {u w cls : TypeId} {m : Method}

theorem Declared.isDeclared_of_find (h : Declared p ts) (hfind : ts.find name = .ok t)
    (hname : name ≠ "SELF_TYPE" ∧ name ≠ "AUTO_TYPE") : IsDeclared ts t :=
  ⟨h.plain_of_find hfind hname.1 hname.2, h.find_lt hfind⟩

theorem Declared.isDeclared_builtin (h : Declared p ts) (ht : t < 8)
    (hkind : TypeId.kind t = .plain) : IsDeclared ts t :=
  ⟨hkind, by rw [h.size_eq]; exact Nat.lt_add_right _ ht⟩

theorem Declared.isDeclared_named (h : Declared p ts) (hp : p.Plain) {i : Nat}
    (hc : p.classes[i]? = some c) (hf : f ∈ c.features) (hn : n ∈ f.signature) :
    IsDeclared ts (ts.named n) := by
  obtain ⟨u, hu⟩ := (h.classes i c hc).resolved f hf n hn
  rw [Types.named_of_find hu]
  exact h.isDeclared_of_find hu ((hp c (List.mem_of_getElem? hc) f hf).types n
    (List.mem_append_left _ hn))

theorem Declared.plainTable (h : Declared p ts) (hp : p.Plain) : PlainTable ts where
  parent_declared hu := ⟨h.plainParents hu, h.parent_lt hu⟩
  top {t} ht hnone := by
    by_contra hne
    obtain ⟨u, hu⟩ := h.exists_parent ht.2 ht.1 hne
    cases hnone.symm.trans hu
  eq_of_sub_basic hu hs := h.eq_of_sub_basic hu hs
  builtin_declared t ht := by
    have hall : ∀ t ∈ [Builtin.object, Builtin.int, Builtin.string, Builtin.bool], t < 8 ∧
        TypeId.kind t = .plain := by decide
    exact h.isDeclared_builtin (hall t ht).1 (hall t ht).2
  find_declared hfind hself hauto := h.isDeclared_of_find hfind ⟨hself, hauto⟩
  param_declared {t m} hm u hu := by
    rcases h.method_cases hm with hb | ⟨i, c, hc, rfl, f, hf, hfm⟩
    · have hall : ∀ x ∈ Builtin.methods, ∀ u ∈ x.2.paramTypes, u < 8 ∧ TypeId.kind u = .plain := by
        decide
      exact h.isDeclared_builtin (hall _ hb u hu).1 (hall _ hb u hu).2
    · match f, hfm with
      | .method name params type body, rfl =>
        obtain ⟨q, hq, rfl⟩ := List.mem_map.1 hu
        exact h.isDeclared_named hp hc hf (List.mem_append_left _ (List.mem_map.2 ⟨q, hq, rfl⟩))
  result_declared {t m} hm := by
    rcases h.method_cases hm with hb | ⟨i, c, hc, rfl, f, hf, hfm⟩
    · have hall : ∀ x ∈ Builtin.methods, x.2.returnType < 8 ∧
          (TypeId.kind x.2.returnType = .plain ∨ TypeId.kind x.2.returnType = .self) := by decide
      exact (hall _ hb).2.imp_left (h.isDeclared_builtin (hall _ hb).1)
    · match f, hfm with
      | .method name params type body, rfl =>
        exact .inl (h.isDeclared_named hp hc hf (List.mem_append_right _ (.head _)))

theorem Declared.attribute_declared (h : Declared p ts) (hp : p.Plain)
    (hx : x ∈ (ts.get t).attributes) : IsDeclared ts x.type := by
  obtain ⟨i, c, hc, rfl, f, hf, hfx⟩ := h.attribute_cases hx
  match f, hfx with
  | .attribute name type value, rfl => exact h.isDeclared_named hp hc hf (.head _)

theorem PlainTable.plainParents (h : PlainTable ts) : ts.PlainParents :=
  fun hp => (h.parent_declared hp).1

theorem PlainTable.sub_of_conforms (h : PlainTable ts) (ht : IsDeclared ts t) (hu : IsDeclared ts u)
    (hc : ts.conforms t u = .ok true) : ts.Sub t u :=
  (Types.reaches_iff h.plainParents ht.1 hu.1 hc).1 rfl

theorem PlainTable.eq_basic_of_conforms (h : PlainTable ts) (ht : IsDeclared ts t)
    (hu : u ∈ [Builtin.int, Builtin.string, Builtin.bool]) (hc : ts.conforms t u = .ok true) :
    t = u :=
  h.eq_of_sub_basic hu (h.sub_of_conforms ht (h.builtin_declared u (.tail _ hu)) hc)

theorem PlainTable.chain_eq_cons (h : PlainTable ts) (ht : IsDeclared ts t) (hl : ts.Chain t l) :
    ∃ l', l = Builtin.object :: l' := by
  induction hl with
  | top htop => exact ⟨[], by rw [h.top ht htop]⟩
  | under hp _ ih =>
    obtain ⟨l', rfl⟩ := ih (h.parent_declared hp)
    exact ⟨_, rfl⟩

theorem PlainTable.leastAbove_of_join (h : PlainTable ts) (ht : IsDeclared ts t)
    (hu : IsDeclared ts u) (hjoin : ts.join t (some u) = .ok r) :
    ∃ w, r = some w ∧ ts.LeastAbove [t, u] w := by
  have hsome : ∃ w, r = some w := by
    rcases Types.join_eq_ok hjoin with ⟨-, rfl⟩ | ⟨-, l, l', hl, hl', hagree⟩
    · exact ⟨u, rfl⟩
    · obtain ⟨m, rfl⟩ := h.chain_eq_cons ht hl
      obtain ⟨m', rfl⟩ := h.chain_eq_cons hu hl'
      obtain ⟨common, x, rest, y, rest', hx, hy, hne, rfl⟩ :=
        Types.agree_eq_ok (hl.plain h.plainParents ht.1) (hl'.plain h.plainParents hu.1) hagree
      cases common with
      | nil =>
        cases hx
        cases hy
        exact absurd rfl hne
      | cons z zs => exact ⟨_, by rw [List.getLast?_cons]; rfl⟩
  obtain ⟨w, rfl⟩ := hsome
  exact ⟨w, rfl, Types.leastAbove_of_join h.plainParents ht.1 hu.1 hjoin⟩

theorem PlainTable.sub_declared (h : PlainTable ts) (hs : ts.Sub t u) (ht : IsDeclared ts t) :
    IsDeclared ts u := by
  rcases Relation.ReflTransGen.cases_tail hs with rfl | ⟨c, -, hc⟩
  · exact ht
  · exact h.parent_declared hc

theorem hasMethod_of_climb (h : ts.climb (fun e => e.methods.find? (·.name == name)) fuel t = .ok
      (some (o, m))) : HasMethod ts t name m := by
  induction fuel generalizing t with
  | zero => cases h
  | succ fuel ih =>
    rw [Types.climb] at h
    cases hfind : (ts.get t).methods.find? (·.name == name) with
    | some n =>
      rw [hfind] at h
      cases h
      have hname : m.name = name := by simpa using List.find?_some hfind
      exact hname ▸ .own (List.mem_of_find?_eq_some hfind)
    | none =>
      rw [hfind] at h
      cases hp : ts.parent? t with
      | none =>
        rw [hp] at h
        cases h
      | some u =>
        rw [hp] at h
        exact .inherited (by simpa using hfind) hp (ih h)

theorem hasMethod_of_findMethod (h : ts.findMethod t name = .ok (o, m)) :
    HasMethod ts t name m := by
  unfold Types.findMethod at h
  cases hc : ts.climb (fun e => e.methods.find? (·.name == name)) ts.height t with
  | error f =>
    rw [hc] at h
    cases h
  | ok r =>
    rw [hc] at h
    cases r with
    | none => cases h
    | some x =>
      cases h
      exact hasMethod_of_climb hc

theorem HasMethod.mem (h : HasMethod ts t name m) : ∃ u, m ∈ (ts.get u).methods := by
  induction h with
  | own hm => exact ⟨_, hm⟩
  | inherited _ _ _ ih => exact ih

theorem PlainTable.ownType_declared (h : PlainTable ts) (hm : HasMethod ts t name m)
    (hc : IsDeclared ts cls) : IsDeclared ts (ownType cls m.returnType) := by
  obtain ⟨u, hu⟩ := hm.mem
  unfold ownType
  split
  · exact hc
  · next hkind => exact (h.result_declared hu).resolve_right (by simpa using hkind)

end AutoCool.Cool
