import AutoCool.Proofs.Cool.CheckComplete
import AutoCool.Proofs.Cool.InferClasses

/-!
# The walks of inference

The checker leaves a program such that inference can walk over it, and so does each walk of
inference.
-/

namespace AutoCool.Cool

variable {p : Program} {ts ts' : Types} {t : ScopeTree} {s : Nat} {c : ClassDecl} {cls : TypeId}
  {a a' a'' : Analysis}

/-! ## What the checker leaves -/

theorem wellFormed_ofSignature (h : paramNames.length = paramTypes.length) :
    (Method.ofSignature name paramNames paramTypes type).WellFormed where
  length_eq := by simp [Method.ofSignature, h]
  type_eq := rfl
  coherent := Variable.coherent_ofType
  unbounded := ⟨rfl, rfl⟩

theorem Declared.wellFormed (h : Declared p ts) : ts.WellFormed := by
  intro t m hm
  rcases h.method_cases hm with hbuiltin | ⟨i, c, hc, rfl, f, hf, hm⟩
  · have hall : ∀ x ∈ Builtin.methods, x.2.WellFormed := by
      simp [Builtin.methods, wellFormed_ofSignature]
    exact hall _ hbuiltin
  · match f with
    | .attribute .. => cases hm
    | .method .. =>
      cases hm
      exact wellFormed_ofSignature (by simp)

theorem Declared.hosts (h : Declared p ts) (hc : p.classes[n]? = some c) : Hosts ts (8 + n) c := by
  have hclass := h.classes n c hc
  refine ⟨h.find_class hc, hclass.distinct, fun name type value hf => ?_,
    fun name params type body hf => ?_⟩
  · exact List.mem_map.2 ⟨_, hclass.mem_attributes hf rfl, rfl⟩
  · exact List.mem_map.2 ⟨_, hclass.mem_methods hf rfl, rfl⟩

theorem Hosts.reparented (h : Hosts ts cls c) (hr : Checking.Reparented ts ts') :
    Hosts ts' cls c where
  find_eq := by
    rw [Types.find, hr.context_eq]
    exact h.find_eq
  distinct := by
    rw [Distinct, hr.attributes_eq, hr.methods_eq]
    exact h.distinct
  attributes := by
    rw [hr.attributes_eq]
    exact h.attributes
  methods := by
    rw [hr.methods_eq]
    exact h.methods

theorem Declared.walkable (hd : Declared p ts) (hlaid : LaidClasses p.classes { types := ts } a) :
    Walkable p a := by
  obtain ⟨is, hroot, hfits, -⟩ := hlaid.laid
  have hparent : (a.scopes.get ScopeTree.root).parent = none := by
    rw [hroot]
    rfl
  have hlocals : (a.scopes.get ScopeTree.root).locals = [] := by
    rw [hroot]
    rfl
  refine ⟨fun t m hm => ?_, fun n c hc => ?_, ?_, fun v hv => ?_, hlaid.ready.tidy,
    hlaid.ready.coherent, hlaid.ready.unbounded, ?_⟩
  · rw [hlaid.types.methods_eq] at hm
    exact hd.wellFormed t m hm
  · exact (hd.hosts hc).reparented hlaid.types
  · rw [FitsProgram, hroot]
    exact hfits.imp fun s c hfit => hfit.1.reparented hlaid.types.symm
  · cases hv with
    | own hv =>
      rw [hlocals] at hv
      cases hv
    | above hp => cases hparent.symm.trans hp
  · rw [hlaid.size_notes]
    exact Nat.zero_add _

/-- What is known after any number of walks of inference that nothing cut short. -/
inductive After (p : Program) (a : Analysis) : Analysis → Prop
  | refl : After p a a
  | step {a' a'' : Analysis} : After p a a' → (infer p).outcome a' = (none, a'') → After p a a''

theorem After.walkable (h : After p a a') (ha : Walkable p a) :
    Walkable p a' ∧ a.types.Refines a'.types := by
  induction h with
  | refl => exact ⟨ha, .refl⟩
  | step _ hrun ih =>
    obtain ⟨_, -, hm, -⟩ := (infer_walks ih.1).of_outcome hrun
    exact ⟨ih.1.moved hm, ih.2.trans hm.types⟩

/-- What some walks of inference leave of a program. -/
def Program.walked (p : Program) : (walks : Nat) → Analysis
  | 0 => p.checked
  | walks + 1 => ((infer p).run.run (p.walked walks)).2

theorem Program.run_walked (h : ((infer p).run.run (p.walked n)).1 = .ok x) :
    (infer p).run.run (p.walked n) = (.ok x, p.walked (n + 1)) := Prod.ext h rfl

/-- Where the types of a program are declared without a cycle, the checker is cut short only for one
of the reasons that `CheckStuck` lists. If it is not, every walk of inference after it is cut short
only for one of the reasons that `InferStuck` lists. -/
theorem stuck_of_cut_short {ts₀ : Types}
    (hcollect : (collect p.classes).outcome Builtin.types = (none, ts₀))
    (hbuild : (build p).outcome ts₀ = (none, ts)) (hacyclic : ts.Acyclic) :
    (∀ f a, (check p).outcome { types := ts } = (some f, a) → CheckStuck p.nodes p.leading a f) ∧
      ∀ a a' f b, (check p).outcome { types := ts } = (none, a) → After p a a' →
        (infer p).outcome a' = (some f, b) →
        InferStuck p.nodes b f := by
  have hd := declared_of_build hcollect hbuild
  have ha := hd.hierarchy hacyclic
  refine ⟨fun f a h => (check_completes hd ha).of_outcome_error h,
    fun a a' f b hcheck hafter hinfer => ?_⟩
  have hlaid := laidClasses_of_check hd.find_ne_auto hcheck
  obtain ⟨hwalkable, hrefines⟩ := hafter.walkable (hd.walkable hlaid)
  have hhalts := (infer_walks hwalkable).of_outcome_error hinfer
  exact hhalts (hrefines.hierarchy (hlaid.types_eq hacyclic ▸ ha))

/-- The type of one branch is above that of the other. -/
def Sample.branches : Program where
  classes := [
    { name := word "A", features := [] },
    { name := word "Main"
      features := [
        .method (word "main") [] (word "Object")
          (.ifThenElse (.atom .bool (word "true")) (.new (word "A")) (.new (word "Object")))] }]

/-- The body of a branch is a `let` whose variable gets its type from what is assigned to it. -/
def Sample.letInBranch : Program where
  classes := [
    { name := word "Main"
      features := [
        .method (word "main") [] (word "Object")
          (.caseOf (.atom .integer (word "1")) [
            .mk (word "x") (word "Int")
              (.letIn [.mk (word "y") (word "AUTO_TYPE") none]
                (.assign (word "y") (.atom .name (word "x"))))])] }]

set_option maxRecDepth 10000 in
theorem stuck_of_cut_short_branches :
    ((check Sample.branches).outcome { types := Sample.branches.types } =
      (some .outOfRange, Sample.branches.checked) ∧
      CheckStuck Sample.branches.nodes Sample.branches.leading Sample.branches.checked
        .outOfRange) ∧
    ∃ b, (infer Sample.letInBranch).outcome Sample.letInBranch.checked = (some .outOfRange, b) ∧
      InferStuck Sample.letInBranch.nodes b .outOfRange := by
  have hdeclared : ∀ p ∈ [Sample.branches, Sample.letInBranch],
      ((collect p.classes).outcome Builtin.types).1 = none ∧
      ((build p).outcome p.names).1 = none := by decide +kernel
  have hacyclic : ∀ p ∈ [Sample.branches, Sample.letInBranch], p.types.Acyclic := by
    simp only [List.forall_mem_cons]
    exact ⟨Types.acyclic_of_parent_lt (by decide +kernel), Types.acyclic_of_parent_lt
      (by decide +kernel), by simp⟩
  have hstuck := fun p hp => stuck_of_cut_short (outcome_eq (hdeclared p hp).1)
      (outcome_eq (hdeclared p hp).2) (hacyclic p hp)
  have hcheck : (check Sample.branches).outcome { types := Sample.branches.types } =
      (some .outOfRange, Sample.branches.checked) := outcome_eq (by decide +kernel)
  have hchecked : (check Sample.letInBranch).outcome { types := Sample.letInBranch.types } =
      (none, Sample.letInBranch.checked) := outcome_eq (by decide +kernel)
  refine ⟨⟨hcheck, (hstuck Sample.branches (by simp)).1 _ _ hcheck⟩, ?_⟩
  have hinfer : ((infer Sample.letInBranch).outcome Sample.letInBranch.checked).1 =
      some .outOfRange := by decide +kernel
  exact ⟨_, outcome_eq hinfer,
    (hstuck Sample.letInBranch (by simp)).2 _ _ _ _ hchecked .refl (outcome_eq hinfer)⟩

end AutoCool.Cool
