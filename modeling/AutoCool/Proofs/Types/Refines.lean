import Mathlib.Data.List.Forall2
import AutoCool.Proofs.Types.Order
import AutoCool.Proofs.Types.Table
import AutoCool.Proofs.Types.Variable

/-!
# Tables that inference has refined

Inference fills in types of features and changes nothing else (`Types.Refines`): the types, their
parents and the names of their features stay. The results of methods stay such that their types can
be inferred (`Method.WellFormed`).
-/

namespace AutoCool

/-- A method has a variable for each parameter, and its result is inferred through a variable that
has its type, and no bounds between two walks. -/
structure Method.WellFormed (m : Method) : Prop where
  length_eq : m.params.length = m.paramTypes.length
  type_eq : m.result.type = m.returnType
  coherent : m.result.Coherent
  unbounded : m.result.Unbounded

def Types.WellFormed (ts : Types) : Prop := ∀ t, ∀ m ∈ (ts.get t).methods, m.WellFormed

/-- A method with types filled in. -/
structure Method.Refines (m m' : Method) : Prop where
  name_eq : m'.name = m.name
  wellFormed : m.WellFormed → m'.WellFormed

/-- A type with the types of its features filled in. -/
structure TypeEntry.Refines (e e' : TypeEntry) : Prop where
  name_eq : e'.name = e.name
  isSealed_eq : e'.isSealed = e.isSealed
  parent_eq : e'.parent = e.parent
  attributes_eq : e'.attributes.map (·.name) = e.attributes.map (·.name)
  methods : List.Forall₂ Method.Refines e.methods e'.methods

/-- A table with the types of features filled in. -/
structure Types.Refines (ts ts' : Types) : Prop where
  context_eq : ts'.context = ts.context
  size_eq : ts'.entries.size = ts.entries.size
  entry : ∀ t, (ts.get t).Refines (ts'.get t)

theorem Method.Refines.refl (m : Method) : m.Refines m := ⟨rfl, id⟩

theorem Method.Refines.trans {m : Method} (h : m.Refines m') (h' : m'.Refines m'') :
    m.Refines m'' :=
  ⟨h'.name_eq.trans h.name_eq, fun hm => h'.wellFormed (h.wellFormed hm)⟩

theorem forall₂_trans (hR : ∀ {x y z}, R x y → R y z → R x z)
    (h : List.Forall₂ R l1 l2) (h' : List.Forall₂ R l2 l3) : List.Forall₂ R l1 l3 := by
  induction h generalizing l3 with
  | nil =>
    cases h'
    exact .nil
  | cons hx _ ih =>
    cases h' with
    | cons hy hrest => exact .cons (hR hx hy) (ih hrest)

theorem TypeEntry.Refines.refl (e : TypeEntry) : e.Refines e :=
  ⟨rfl, rfl, rfl, rfl, List.forall₂_same.2 fun m _ => .refl m⟩

theorem TypeEntry.Refines.trans {e : TypeEntry} (h : e.Refines e') (h' : e'.Refines e'') :
    e.Refines e'' where
  name_eq := h'.name_eq.trans h.name_eq
  isSealed_eq := h'.isSealed_eq.trans h.isSealed_eq
  parent_eq := h'.parent_eq.trans h.parent_eq
  attributes_eq := h'.attributes_eq.trans h.attributes_eq
  methods := forall₂_trans .trans h.methods h'.methods

theorem TypeEntry.Refines.methods_eq {e : TypeEntry} (h : e.Refines e') :
    e'.methods.map (·.name) = e.methods.map (·.name) := by
  rw [← List.forall₂_eq_eq_eq, List.forall₂_map_left_iff, List.forall₂_map_right_iff]
  exact (h.methods.imp fun _ _ hm => hm.name_eq).flip

namespace Types

variable {ts ts' ts'' : Types} {t : TypeId} {name : String}

theorem Refines.refl : Refines ts ts := ⟨rfl, rfl, fun _ => .refl _⟩

theorem Refines.trans (h : Refines ts ts') (h' : Refines ts' ts'') : Refines ts ts'' :=
  ⟨h'.context_eq.trans h.context_eq, h'.size_eq.trans h.size_eq, fun t =>
    (h.entry t).trans (h'.entry t)⟩

theorem Refines.find_eq (h : Refines ts ts') (name : String) : ts'.find name = ts.find name := by
  rw [find, find, h.context_eq]

theorem Refines.hierarchy (h : Refines ts ts') (ha : ts.Hierarchy) : ts'.Hierarchy := by
  have hparent : ts'.parent? = ts.parent? := funext fun t => (h.entry t).parent_eq
  refine ⟨?_, ?_, ?_⟩
  · rw [Acyclic, hparent]
    exact ha.acyclic
  · rw [PlainParents, hparent]
    exact ha.plainParents
  · rw [hparent]
    exact ha.self_top

theorem Refines.wellFormed (h : Refines ts ts') (hts : ts.WellFormed) : ts'.WellFormed := by
  intro t m hm
  obtain ⟨hlen, hget⟩ := List.forall₂_iff_get.1 (h.entry t).methods
  obtain ⟨i, hi, rfl⟩ := List.mem_iff_getElem.1 hm
  exact (hget i (hlen ▸ hi) hi).wellFormed (hts t _ (List.get_mem ..))

theorem refines_modifyAttribute (h : ∀ x, (f x).name = x.name) :
    Refines ts (ts.modifyAttribute t name f) := by
  refine ⟨rfl, size_modify, forall_modify .refl ⟨rfl, rfl, rfl, ?_, List.forall₂_same.2 fun m _ =>
    .refl m⟩⟩
  rw [List.map_map]
  refine List.map_congr_left fun x _ => ?_
  simp only [Function.comp_apply]
  split
  · exact h x
  · rfl

theorem refines_modifyMethod (h : ∀ m ∈ (ts.get t).methods, m.name = name → m.Refines (f m)) :
    Refines ts (ts.modifyMethod t name f) := by
  refine ⟨rfl, size_modify, forall_modify .refl ⟨rfl, rfl, rfl, rfl, ?_⟩⟩
  rw [List.forall₂_map_right_iff, List.forall₂_same]
  intro m hm
  split
  · next hn => exact h m hm (by simpa using hn)
  · exact .refl m

end Types

end AutoCool
