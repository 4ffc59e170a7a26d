import AutoCool.Proofs.Types.Variable
import AutoCool.Types.Scope

/-!
# What scopes know

A scope finds a name among its own variables, or above itself (`find_eq_or`). What `createChild` and
`define` change is one scope and the end of a list, so a variable that is found from a scope stays
the one that is found while the scopes below it grow (`Extends.find_eq`), and while the tree grows
anywhere but in the scope itself (`Grows.find_eq`). A new child knows what its parent knows
(`find_createChild`).
-/

namespace AutoCool.ScopeTree

variable {t t' t'' : ScopeTree} {s i v : Nat} {name name' : String} {type : TypeId}

@[simp] theorem size_createChild : (t.createChild s).2.scopes.size = t.scopes.size + 1 := by
  simp [createChild]

@[simp] theorem vars_createChild : (t.createChild s).2.vars = t.vars := rfl

@[simp] theorem getVar_createChild : (t.createChild s).2.getVar v = t.getVar v := rfl

theorem get_createChild (hs : s < t.scopes.size) :
    (t.createChild s).2.get i =
      if i = t.scopes.size then { parent := some s, index := (t.get s).locals.length }
      else if i = s then { t.get s with children := (t.get s).children ++ [t.scopes.size] }
      else t.get i := by
  have hget : t.get s = (t.scopes[s]?).getD default := Array.getD_eq_getD_getElem?
  simp only [get, createChild, Array.getD_eq_getD_getElem?, Array.getElem?_modify,
    Array.getElem?_push]
  by_cases hi : i = t.scopes.size
  · subst hi
    simp [Nat.ne_of_lt hs]
  · by_cases his : i = s
    · subst his
      simp [hi, hs]
    · simp [hi, his, Ne.symm his]

theorem get_of_size_le (h : t.scopes.size ≤ i) : t.get i = {} := by
  rw [get, Array.getD_eq_getD_getElem?, Array.getElem?_eq_none h]
  rfl

theorem locals_createChild (hs : s < t.scopes.size) :
    ((t.createChild s).2.get i).locals = (t.get i).locals := by
  rw [get_createChild hs]
  split
  · next hi => rw [get_of_size_le (Nat.le_of_eq hi.symm)]
  · split
    · next his => rw [his]
    · rfl

@[simp] theorem size_define : (t.define s name type).2.scopes.size = t.scopes.size := by
  simp [define, newVariable]

@[simp] theorem size_vars_define : (t.define s name type).2.vars.size = t.vars.size + 1 := by
  simp [define, newVariable]

theorem get_define (hs : s < t.scopes.size) :
    (t.define s name type).2.get i = if i =
      s then { t.get s with locals := (t.get s).locals ++ [(name, t.vars.size)] } else t.get i := by
  simp only [get, define, newVariable, Array.getD_eq_getD_getElem?, Array.getElem?_modify]
  by_cases his : i = s
  · subst his
    simp [hs]
  · simp [his, Ne.symm his]

theorem getVar_define :
    (t.define s name type).2.getVar v =
      if v = t.vars.size then Variable.ofType name type else t.getVar v := by
  simp only [getVar, define, newVariable, Array.getD_eq_getD_getElem?, Array.getElem?_push]
  split <;> simp

theorem lt_size_of_inferred (h : (t.getVar v).inferred = true) : v < t.vars.size := by
  by_contra hge
  simp [getVar, Array.getD, hge] at h
  cases h

/-- What a scope finds of a name that none of its own variables has. -/
def findAbove (t : ScopeTree) (s : ScopeId) (name : String) : Option VarId :=
  match (t.get s).parent with
  | none => none
  | some p => if p < s then t.findWithin p name (some (t.get s).index) else none

theorem findWithin_eq_or :
    t.findWithin s name limit =
      ((limit.elim (t.get s).locals fun n => (t.get s).locals.take n).lookup name).or
      (t.findAbove s name) := by
  rw [findWithin]
  split
  · next v hv => rw [hv, Option.some_or]
  · next hnone =>
    rw [hnone, Option.none_or]
    rfl

theorem find_eq_or : t.find s name = ((t.get s).locals.lookup name).or (t.findAbove s name) :=
  findWithin_eq_or

/-- What a scope finds above itself depends on its place, and on what the parent finds among the
variables that it sees. -/
theorem findAbove_congr (hparent : (t'.get s).parent = (t.get s).parent)
    (hindex : (t'.get s).index = (t.get s).index)
    (h : ∀ p < s, (t.get s).parent = some p →
      t'.findWithin p name (some (t.get s).index) = t.findWithin p name (some (t.get s).index)) :
    t'.findAbove s name = t.findAbove s name := by
  rw [findAbove, findAbove, hparent, hindex]
  split
  · rfl
  · next p hp =>
    split
    · next hlt => exact h p hlt hp
    · rfl

/-- Which variable is found depends on the scopes up to the one where the search begins, not on
their children. -/
theorem findWithin_congr
    (h : ∀ i ≤ s, (t'.get i).parent = (t.get i).parent ∧ (t'.get i).index = (t.get i).index ∧
      (t'.get i).locals = (t.get i).locals) :
    t'.findWithin s name limit = t.findWithin s name limit := by
  induction s using Nat.strongRecOn generalizing limit with
  | ind s ih =>
    obtain ⟨hparent, hindex, hlocals⟩ := h s (Nat.le_refl s)
    rw [findWithin_eq_or, findWithin_eq_or, hlocals]
    congr 1
    exact findAbove_congr hparent hindex fun p hp _ => ih p hp fun i hi =>
      h i (Nat.le_trans hi (Nat.le_of_lt hp))

theorem find_createChild (hs : s < t.scopes.size) :
    (t.createChild s).2.find t.scopes.size name = t.find s name := by
  have hsame : ∀ i ≤ s, ((t.createChild s).2.get i).parent = (t.get i).parent ∧
      ((t.createChild s).2.get i).index = (t.get i).index ∧
      ((t.createChild s).2.get i).locals = (t.get i).locals := by
    intro i hi
    rw [get_createChild hs, if_neg (by omega)]
    split
    · next his => exact his ▸ ⟨rfl, rfl, rfl⟩
    · exact ⟨rfl, rfl, rfl⟩
  rw [find_eq_or, findAbove, get_createChild hs, if_pos rfl]
  simp only [List.lookup_nil, Option.none_or, if_pos hs]
  rw [findWithin_congr hsame, findWithin_eq_or, Option.elim_some, List.take_length, find_eq_or]

/-- A variable of a scope or of one above it. -/
inductive Visible (t : ScopeTree) : Nat → Nat → Prop
  | own {i v : Nat} : v ∈ (t.get i).locals.map (·.2) → Visible t i v
  | above {i j v : Nat} : (t.get i).parent = some j → Visible t j v → Visible t i v

/-- A variable of a scope above one. -/
def VisibleAbove (t : ScopeTree) (s v : Nat) : Prop :=
  ∃ p, (t.get s).parent = some p ∧ Visible t p v

theorem mem_of_lookup {l : List (String × Nat)} (h : l.lookup name = some v) : v ∈ l.map (·.2) := by
  obtain ⟨l1, l2, rfl, -⟩ := List.lookup_eq_some_iff.1 h
  simp

theorem lookup_eq_none_iff {l : List (String × Nat)} :
    l.lookup name = none ↔ name ∉ l.map (·.1) := by
  rw [List.lookup_eq_none_iff, List.mem_map]
  constructor
  · rintro h ⟨x, hx, rfl⟩
    exact bne_iff_ne.1 (h x hx) rfl
  · intro h x hx
    exact bne_iff_ne.2 fun heq => h ⟨x, hx, heq.symm⟩

theorem visible_of_findWithin (h : t.findWithin s name limit = some v) : Visible t s v := by
  induction s using Nat.strongRecOn generalizing limit with
  | ind s ih =>
    rw [findWithin_eq_or, Option.or_eq_some_iff] at h
    rcases h with h | ⟨-, h⟩
    · refine .own ?_
      cases limit with
      | none => exact mem_of_lookup h
      | some n =>
        have hmem := mem_of_lookup h
        rw [Option.elim_some, List.map_take] at hmem
        exact List.mem_of_mem_take hmem
    · rw [findAbove] at h
      split at h
      · cases h
      · next p hp =>
        split at h
        · next hlt => exact .above hp (ih p hlt h)
        · cases h

theorem visible_of_find (h : t.find s name = some v) : Visible t s v := visible_of_findWithin h

/-- The variables of all scopes have numbers. -/
def Valid (t : ScopeTree) : Prop := ∀ i, ∀ x ∈ (t.get i).locals, x.2 < t.vars.size

theorem Valid.lt_of_visible (h : t.Valid) (hv : t.Visible s v) : v < t.vars.size := by
  induction hv with
  | own hmem =>
    obtain ⟨x, hx, rfl⟩ := List.mem_map.1 hmem
    exact h _ x hx
  | above _ _ ih => exact ih

theorem Valid.find_lt (h : t.Valid) (hv : t.find s name = some v) : v < t.vars.size :=
  h.lt_of_visible (visible_of_find hv)

theorem Valid.createChild (h : t.Valid) (hs : s < t.scopes.size) : (t.createChild s).2.Valid := by
  intro i x hx
  rw [get_createChild hs] at hx
  split at hx
  · cases hx
  · split at hx
    · exact h s x hx
    · exact h i x hx

theorem Valid.define (h : t.Valid) (hs : s < t.scopes.size) : (t.define s name type).2.Valid := by
  intro i x hx
  rw [get_define hs] at hx
  rw [size_vars_define]
  split at hx
  · rcases List.mem_append.1 hx with hx | hx
    · exact Nat.lt_succ_of_lt (h s x hx)
    · rw [List.mem_singleton.1 hx]
      exact Nat.lt_succ_self _
  · exact Nat.lt_succ_of_lt (h i x hx)

/-- The scopes hang together: a child knows its parent, and sees no more variables of it than there
are, the root has no parent, and every variable and every child belongs to one place in one
scope. -/
structure Tidy (t : ScopeTree) : Prop where
  root_eq : (t.get root).parent = none
  parent_eq : ∀ i, ∀ j ∈ (t.get i).children, (t.get j).parent = some i
  children_nodup : ∀ i, (t.get i).children.Nodup
  index_le : ∀ i j, (t.get j).parent = some i → (t.get j).index ≤ (t.get i).locals.length
  owner : ∀ i j v, v ∈ (t.get i).locals.map (·.2) → v ∈ (t.get j).locals.map (·.2) → i = j
  nodup : ∀ i, ((t.get i).locals.map (·.2)).Nodup

theorem get_start : ({} : ScopeTree).get i = {} := by
  simp only [get, Array.getD_eq_getD_getElem?]
  cases i <;> rfl

theorem valid_start : ({} : ScopeTree).Valid := by
  intro i x hx
  rw [get_start] at hx
  cases hx

theorem tidy_start : ({} : ScopeTree).Tidy := by
  constructor <;> simp [get_start]

theorem Tidy.congr (h : t.Tidy) (hget : ∀ i, t'.get i = t.get i) : t'.Tidy := by
  obtain ⟨hroot, hparent, hchildren, hindex, howner, hnodup⟩ := h
  constructor <;> simp only [hget] <;> assumption

theorem Tidy.createChild (h : t.Tidy) (hs : s < t.scopes.size) : (t.createChild s).2.Tidy := by
  have hnew : t.get t.scopes.size = {} := get_of_size_le (Nat.le_refl _)
  have hold : ∀ i ≠ t.scopes.size, ((t.createChild s).2.get i).parent = (t.get i).parent ∧
      ((t.createChild s).2.get i).index = (t.get i).index := by
    intro i hi
    rw [get_createChild hs, if_neg hi]
    split
    · next his => exact his ▸ ⟨rfl, rfl⟩
    · exact ⟨rfl, rfl⟩
  have hfresh : ∀ i, t.scopes.size ∉ (t.get i).children := by
    intro i hi
    have hparent := h.parent_eq i _ hi
    rw [hnew] at hparent
    cases hparent
  have hchildren : ∀ i, ((t.createChild s).2.get i).children =
      if i = s then (t.get i).children ++ [t.scopes.size] else (t.get i).children := by
    intro i
    rw [get_createChild hs]
    split
    · next hi => rw [hi, if_neg (Nat.ne_of_gt hs), hnew]
    · split
      · next his => rw [his]
      · rfl
  constructor
  · have hroot : root ≠ t.scopes.size := Nat.ne_of_lt (Nat.lt_of_le_of_lt (Nat.zero_le s) hs)
    rw [(hold root hroot).1]
    exact h.root_eq
  · intro i j hj
    have hcases : j ∈ (t.get i).children ∨ i = s ∧ j = t.scopes.size := by
      rw [hchildren] at hj
      split at hj
      · next his => exact (List.mem_append.1 hj).imp_right fun h => ⟨his, List.mem_singleton.1 h⟩
      · exact .inl hj
    rcases hcases with hj | ⟨rfl, rfl⟩
    · rw [(hold j fun heq => hfresh i (heq ▸ hj)).1]
      exact h.parent_eq i j hj
    · rw [get_createChild hs, if_pos rfl]
  · intro i
    rw [hchildren]
    split
    · refine List.nodup_append.2 ⟨h.children_nodup i, by simp, fun j hj k hk heq => ?_⟩
      rw [heq, List.mem_singleton.1 hk] at hj
      exact hfresh i hj
    · exact h.children_nodup i
  · intro i j hj
    rw [locals_createChild hs]
    by_cases hnew : j = t.scopes.size
    · rw [get_createChild hs, if_pos hnew] at hj ⊢
      cases hj
      exact Nat.le_refl _
    · rw [(hold j hnew).1] at hj
      rw [(hold j hnew).2]
      exact h.index_le i j hj
  · intro i j v hi hj
    rw [locals_createChild hs] at hi hj
    exact h.owner i j v hi hj
  · intro i
    rw [locals_createChild hs]
    exact h.nodup i

theorem Tidy.define (h : t.Tidy) (hvalid : t.Valid) (hs : s < t.scopes.size) :
    (t.define s name type).2.Tidy := by
  have hfresh : ∀ i, t.vars.size ∉ (t.get i).locals.map (·.2) := by
    intro i hi
    obtain ⟨x, hx, heq⟩ := List.mem_map.1 hi
    exact Nat.ne_of_lt (hvalid i x hx) heq
  have hrest : ∀ i, ((t.define s name type).2.get i).parent = (t.get i).parent ∧
      ((t.define s name type).2.get i).index = (t.get i).index ∧
      ((t.define s name type).2.get i).children = (t.get i).children := by
    intro i
    rw [get_define hs]
    split
    · next his => exact his ▸ ⟨rfl, rfl, rfl⟩
    · exact ⟨rfl, rfl, rfl⟩
  have hlocals : ∀ i, ((t.define s name type).2.get i).locals.map (·.2) =
      if i = s then (t.get i).locals.map (·.2) ++ [t.vars.size] else (t.get i).locals.map
        (·.2) := by
    intro i
    rw [get_define hs]
    split
    · next his => rw [his, List.map_append]; rfl
    · rfl
  have hmem : ∀ i v, v ∈ ((t.define s name type).2.get i).locals.map (·.2) →
      v ∈ (t.get i).locals.map (·.2) ∨ v = t.vars.size ∧ i = s := by
    intro i v hv
    rw [hlocals] at hv
    split at hv
    · next his => exact (List.mem_append.1 hv).imp_right fun h => ⟨List.mem_singleton.1 h, his⟩
    · exact .inl hv
  constructor
  · rw [(hrest root).1]
    exact h.root_eq
  · intro i j hj
    rw [(hrest i).2.2] at hj
    rw [(hrest j).1]
    exact h.parent_eq i j hj
  · intro i
    rw [(hrest i).2.2]
    exact h.children_nodup i
  · intro i j hj
    rw [(hrest j).1] at hj
    rw [(hrest j).2.1]
    have hle := h.index_le i j hj
    have hlen := congrArg List.length (hlocals i)
    rw [List.length_map] at hlen
    rw [hlen]
    split <;> simp <;> omega
  · intro i j v hi hj
    rcases hmem i v hi with hi' | ⟨hv, his⟩
    · rcases hmem j v hj with hj' | ⟨hv, -⟩
      · exact h.owner i j v hi' hj'
      · exact absurd (hv ▸ hi') (hfresh i)
    · rcases hmem j v hj with hj' | ⟨-, hjs⟩
      · exact absurd (hv ▸ hj') (hfresh j)
      · exact his.trans hjs.symm
  · intro i
    rw [hlocals]
    split
    · refine List.nodup_append.2 ⟨h.nodup i, by simp, fun v hv u hu heq => ?_⟩
      rw [heq, List.mem_singleton.1 hu] at hv
      exact hfresh i hv
    · exact h.nodup i

/-- No variable has bounds. -/
def Unbounded (t : ScopeTree) : Prop := ∀ v, (t.getVar v).Unbounded

theorem Unbounded.define (h : t.Unbounded) : (t.define s name type).2.Unbounded := by
  intro v
  rw [getVar_define]
  split
  · exact ⟨rfl, rfl⟩
  · exact h v

/-- The types of the variables are known just when they are not still to be inferred. -/
def Coherent (t : ScopeTree) : Prop := ∀ v < t.vars.size, (t.getVar v).Coherent

theorem Coherent.define (h : t.Coherent) : (t.define s name type).2.Coherent := by
  intro v hv
  rw [getVar_define]
  rw [size_vars_define] at hv
  split
  · exact Variable.coherent_ofType
  · exact h v (by omega)

/-- A tree that grew below one scope: the other scopes are as they were, and so are the
variables. -/
structure Extends (scope : Nat) (t t' : ScopeTree) : Prop where
  size_le : t.scopes.size ≤ t'.scopes.size
  vars_le : t.vars.size ≤ t'.vars.size
  getVar_eq : ∀ v < t.vars.size, t'.getVar v = t.getVar v
  get_eq : ∀ i < t.scopes.size, i ≠ scope → t'.get i = t.get i
  parent_eq : (t'.get scope).parent = (t.get scope).parent
  index_eq : (t'.get scope).index = (t.get scope).index

theorem Extends.refl : Extends s t t :=
  ⟨Nat.le_refl _, Nat.le_refl _, fun _ _ => rfl, fun _ _ _ => rfl, rfl, rfl⟩

theorem Extends.trans (h : Extends s t t') (h' : Extends s t' t'') : Extends s t t'' where
  size_le := Nat.le_trans h.size_le h'.size_le
  vars_le := Nat.le_trans h.vars_le h'.vars_le
  getVar_eq v hv := (h'.getVar_eq v (Nat.lt_of_lt_of_le hv h.vars_le)).trans (h.getVar_eq v hv)
  get_eq i hi his := (h'.get_eq i (Nat.lt_of_lt_of_le hi h.size_le) his).trans (h.get_eq i hi his)
  parent_eq := h'.parent_eq.trans h.parent_eq
  index_eq := h'.index_eq.trans h.index_eq

theorem extends_define (hs : s < t.scopes.size) : Extends s t (t.define s name type).2 where
  size_le := by simp
  vars_le := by simp
  getVar_eq v hv := by rw [getVar_define, if_neg (Nat.ne_of_lt hv)]
  get_eq i hi his := by rw [get_define hs, if_neg his]
  parent_eq := by rw [get_define hs, if_pos rfl]
  index_eq := by rw [get_define hs, if_pos rfl]

theorem Extends.get_parent (h : Extends t.scopes.size (t.createChild s).2 t')
    (hs : s < t.scopes.size) :
    t'.get s = { t.get s with children := (t.get s).children ++ [t.scopes.size] } := by
  rw [h.get_eq s (by simp; omega) (by omega), get_createChild hs, if_neg (by omega), if_pos rfl]

theorem Extends.of_child (h : Extends t.scopes.size (t.createChild s).2 t')
    (hs : s < t.scopes.size) : Extends s t t' where
  size_le := by have := h.size_le; simp only [size_createChild] at this; omega
  vars_le := h.vars_le
  getVar_eq := h.getVar_eq
  get_eq i hi his := by
    rw [h.get_eq i (by simp; omega) (by omega), get_createChild hs, if_neg (by omega), if_neg his]
  parent_eq := by rw [h.get_parent hs]
  index_eq := by rw [h.get_parent hs]

theorem Extends.findAbove_eq (h : Extends s t t') (hs : s < t.scopes.size) :
    t'.findAbove s name = t.findAbove s name := by
  refine findAbove_congr h.parent_eq h.index_eq fun p hp _ => findWithin_congr fun i hi => ?_
  rw [h.get_eq i (by omega) (by omega)]
  exact ⟨rfl, rfl, rfl⟩

theorem Extends.find_eq (h : Extends s t t') (hs : s < t.scopes.size)
    (hlocals : (t'.get s).locals = (t.get s).locals) : t'.find s name = t.find s name := by
  rw [find_eq_or, find_eq_or, hlocals, h.findAbove_eq hs]

theorem isLocal_eq_false_iff : t.isLocal s name = false ↔ (t.get s).locals.lookup name = none := by
  rw [isLocal, List.any_eq_false, List.lookup_eq_none_iff]
  refine forall₂_congr fun x _ => ?_
  rw [beq_iff_eq, bne_iff_ne]
  exact ne_comm

/-- A new variable is found among those of its scope if it is the first one of its name. -/
theorem lookup_define (hs : s < t.scopes.size) :
    ((t.define s name type).2.get s).locals.lookup name' = if name' = name ∧
    t.isLocal s name' = false then some t.vars.size else (t.get s).locals.lookup name' := by
  rw [get_define hs, if_pos rfl, List.lookup_append, List.lookup_cons, List.lookup_nil]
  by_cases hn : name' = name
  · subst hn
    cases h : (t.get s).locals.lookup name' with
    | none => simp [isLocal_eq_false_iff, h]
    | some v => simp [isLocal_eq_false_iff, h]
  · rw [beq_eq_false_iff_ne.2 hn, Option.or_none, if_neg fun h => hn h.1]

theorem find_define (hs : s < t.scopes.size) : (t.define s name type).2.find s name' =
    if name' = name ∧ t.isLocal s name' = false then some t.vars.size else t.find s name' := by
  rw [find_eq_or, (extends_define hs).findAbove_eq hs, lookup_define hs]
  split
  · rfl
  · rw [find_eq_or]

/-- A tree that grew: every scope has the variables that it had, and after them others may have
come. -/
structure Grows (t t' : ScopeTree) : Prop where
  size_le : t.scopes.size ≤ t'.scopes.size
  parent_eq : ∀ i < t.scopes.size, (t'.get i).parent = (t.get i).parent
  index_eq : ∀ i < t.scopes.size, (t'.get i).index = (t.get i).index
  locals : ∀ i < t.scopes.size, (t.get i).locals <+: (t'.get i).locals

theorem Grows.refl : Grows t t :=
  ⟨Nat.le_refl _, fun _ _ => rfl, fun _ _ => rfl, fun _ _ => List.prefix_refl _⟩

theorem Grows.trans (h : Grows t t') (h' : Grows t' t'') : Grows t t'' where
  size_le := Nat.le_trans h.size_le h'.size_le
  parent_eq i hi := (h'.parent_eq i (Nat.lt_of_lt_of_le hi h.size_le)).trans (h.parent_eq i hi)
  index_eq i hi := (h'.index_eq i (Nat.lt_of_lt_of_le hi h.size_le)).trans (h.index_eq i hi)
  locals i hi := (h.locals i hi).trans (h'.locals i (Nat.lt_of_lt_of_le hi h.size_le))

theorem Extends.grows (h : Extends s t t') (hlocals : (t.get s).locals <+: (t'.get s).locals) :
    Grows t t' := by
  refine ⟨h.size_le, fun i hi => ?_, fun i hi => ?_, fun i hi => ?_⟩ <;> by_cases his : i = s
  · rw [his, h.parent_eq]
  · rw [h.get_eq i hi his]
  · rw [his, h.index_eq]
  · rw [h.get_eq i hi his]
  · rw [his]
    exact hlocals
  · simp only [h.get_eq i hi his, List.prefix_rfl]

/-- A scope sees only those variables of its parent that were there when it was made, so what it
finds above itself stays. -/
theorem Grows.findAbove_eq (h : Grows t t') (ht : t.Tidy) (hs : s < t.scopes.size) :
    t'.findAbove s name = t.findAbove s name := by
  induction s using Nat.strongRecOn with
  | ind s ih =>
    -- In the parent the search is over the variables that the scope sees, and those that came later
    -- stand behind them.
    refine findAbove_congr (h.parent_eq s hs) (h.index_eq s hs) fun p hlt hp => ?_
    have hp' := Nat.lt_trans hlt hs
    obtain ⟨l, hl⟩ := h.locals p hp'
    rw [findWithin_eq_or, findWithin_eq_or, ih p hlt hp', Option.elim_some, Option.elim_some, ← hl,
      List.take_append_of_le_length (ht.index_le p s hp)]

theorem Grows.find_eq (h : Grows t t') (ht : t.Tidy) (hs : s < t.scopes.size)
    (hlookup : (t'.get s).locals.lookup name = (t.get s).locals.lookup name) :
    t'.find s name = t.find s name := by
  rw [find_eq_or, find_eq_or, hlookup, h.findAbove_eq ht hs]

/-- The variables of a scope with their types. -/
def typedLocals (t : ScopeTree) (s : Nat) : List (String × TypeId) :=
  (t.get s).locals.map fun x => (x.1, (t.getVar x.2).type)

theorem Extends.typedLocals_eq (h : Extends s t t') (hvalid : t.Valid)
    (hlocals : (t'.get i).locals = (t.get i).locals) : t'.typedLocals i = t.typedLocals i := by
  rw [typedLocals, typedLocals, hlocals]
  refine List.map_congr_left fun x hx => ?_
  rw [h.getVar_eq x.2 (hvalid i x hx)]

theorem typedLocals_define (hvalid : t.Valid) (hs : s < t.scopes.size) (name : String)
    (type : TypeId) : (t.define s name type).2.typedLocals s = t.typedLocals s ++
      [(name, type)] := by
  rw [typedLocals, get_define hs, if_pos rfl, List.map_append]
  congr 1
  · refine List.map_congr_left fun x hx => ?_
    rw [getVar_define, if_neg (Nat.ne_of_lt (hvalid s x hx))]
  · rw [List.map_singleton, getVar_define, if_pos rfl]
    rfl

theorem Extends.inferred (h : Extends s t t') (hv : (t.getVar v).inferred = true) :
    (t'.getVar v).inferred = true := by
  rw [h.getVar_eq v (lt_size_of_inferred hv)]
  exact hv

/-! ## Changing variables -/

section

variable {f : Variable → Variable} {u : Nat}

@[simp] theorem scopes_modify : (t.modify v f).scopes = t.scopes := rfl

@[simp] theorem size_vars_modify : (t.modify v f).vars.size = t.vars.size := by
  simp [modify]

theorem getVar_modify :
    (t.modify v f).getVar u = if u = v ∧ v < t.vars.size then f (t.getVar u) else t.getVar u := by
  simp only [getVar, modify, Array.getD_eq_getD_getElem?, Array.getElem?_modify]
  by_cases h : u = v
  · subst h
    by_cases hu : u < t.vars.size
    · simp [hu]
    · simp [hu]
  · simp [h, Ne.symm h]

/-- What holds of a variable and what it is changed to, and of every variable and itself, holds of
all variables. -/
theorem forall_modify {R : Variable → Variable → Prop} (hrefl : ∀ x, R x x)
    (h : R (t.getVar v) (f (t.getVar v))) (u : Nat) : R (t.getVar u) ((t.modify v f).getVar u) := by
  rw [getVar_modify]
  split
  · next hu =>
    rw [hu.1]
    exact h
  · exact hrefl _

end

end AutoCool.ScopeTree
