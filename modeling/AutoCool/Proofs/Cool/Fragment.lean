import AutoCool.Cool.Grammar

/-!
# Fragments of programs

The rules of the grammar put fragments together. Where the parts are fragments of expressions the
whole is one, at the place that the expression has, and the fragment of a program is read back as
the program (`Program.ofFragment?_ofProgram`).
-/

namespace AutoCool.Cool

/-! ### Nodes -/

namespace Fragment

/-- The fragment of what follows the object in a call. -/
def ofDispatch (name : Token) (args : List Expr) : Option Token → Fragment
  | none => .tuple [.token name, .list (ofExprs args)]
  | some type => .tuple [.token name, .list (ofExprs args), .token type]

@[simp] theorem place_ofExpr (e : Expr) : (ofExpr e).place = .ok e.position := by
  cases e <;> simp [ofExpr, place]

theorem getLast?_ofExprs (e : Expr) (es : List Expr) :
    ∃ f, (ofExprs (e :: es)).getLast? = some (ofExpr f) ∧
    f.position = Expr.lastPosition (e :: es) := by
  induction es generalizing e with
  | nil => exact ⟨e, by simp [ofExprs], by rw [Expr.lastPosition]⟩
  | cons e' es ih =>
    obtain ⟨f, hf, hposition⟩ := ih e'
    refine ⟨f, ?_, by rw [Expr.lastPosition, hposition]⟩
    rw [ofExprs, List.getLast?_cons, hf]
    rfl

theorem call_ofDispatch (object : Expr) (name : Token) (args : List Expr) (type : Option Token) :
    call (ofExpr object) (ofDispatch name args type) =
      .ok (ofExpr (.call object name args type)) := by
  cases type <;> rfl

end Fragment

theorem FragmentRule.node_eq (hparts : parts.mapM (fun part => part values) = .ok xs)
    (hanchor : Fragment.anchor kind xs = .ok x) (hplace : x.place = .ok pos) :
    FragmentRule.node kind parts values = .ok (.node kind pos xs) := by
  simp [FragmentRule.node, hparts, Fragment.make, hanchor, hplace, bind, Except.bind, pure,
    Except.pure]

theorem FragmentRule.node_block (hparts : parts.mapM (fun part => part values) = .ok
      [.list (Fragment.ofExprs (e :: es))]) :
    FragmentRule.node .block parts values = .ok (Fragment.ofExpr (.block (e :: es))) := by
  obtain ⟨f, hf, hposition⟩ := Fragment.getLast?_ofExprs e es
  have hanchor : Fragment.anchor .block [.list (Fragment.ofExprs (e :: es))] = .ok
      (Fragment.ofExpr f) := by
    simp [Fragment.anchor, Fragment.items, hf, bind, Except.bind]
  rw [FragmentRule.node_eq hparts hanchor (Fragment.place_ofExpr f), hposition]
  rfl

/-! ### Reading fragments back -/

theorem Fragment.exists_ofExpr_eq (e : Expr) :
    ∃ kind pos parts, Fragment.ofExpr e = .node kind pos parts := by
  cases e <;> exact ⟨_, _, _, by rw [Fragment.ofExpr]⟩

mutual

theorem Expr.ofFragment?_ofExpr : (e : Expr) → Expr.ofFragment? (Fragment.ofExpr e) = some e
  | .ifThenElse c t e => by
    simp [Fragment.ofExpr, Expr.kind, Expr.ofFragment?, Expr.ofFragment?_ofExpr c,
      Expr.ofFragment?_ofExpr t,
      Expr.ofFragment?_ofExpr e]
  | .whileLoop c b => by
    simp [Fragment.ofExpr, Expr.kind, Expr.ofFragment?, Expr.ofFragment?_ofExpr c,
      Expr.ofFragment?_ofExpr b]
  | .block es =>
    by simp [Fragment.ofExpr, Expr.kind, Expr.ofFragment?, Expr.ofFragments?_ofExprs es]
  | .letIn bs e => by
    simp [Fragment.ofExpr, Expr.kind, Expr.ofFragment?, Binding.ofFragments?_ofBindings bs,
      Expr.ofFragment?_ofExpr e]
  | .caseOf e bs => by
    simp [Fragment.ofExpr, Expr.kind, Expr.ofFragment?, Branch.ofFragments?_ofBranches bs,
      Expr.ofFragment?_ofExpr e]
  | .assign _ e => by simp [Fragment.ofExpr, Expr.kind, Expr.ofFragment?, Expr.ofFragment?_ofExpr e]
  | .unary _ e => by simp [Fragment.ofExpr, Expr.kind, Expr.ofFragment?, Expr.ofFragment?_ofExpr e]
  | .binary _ l r => by
    simp [Fragment.ofExpr, Expr.kind, Expr.ofFragment?, Expr.ofFragment?_ofExpr l,
      Expr.ofFragment?_ofExpr r]
  | .call e _ es none => by
    simp [Fragment.ofExpr, Expr.kind, Expr.ofFragment?, Fragment.ofToken?,
      Expr.ofFragment?_ofExpr e,
      Expr.ofFragments?_ofExprs es]
  | .call e _ es (some _) => by
    simp [Fragment.ofExpr, Expr.kind, Expr.ofFragment?, Fragment.ofToken?,
      Expr.ofFragment?_ofExpr e,
      Expr.ofFragments?_ofExprs es]
  | .selfCall _ es =>
    by simp [Fragment.ofExpr, Expr.kind, Expr.ofFragment?, Expr.ofFragments?_ofExprs es]
  | .new _ => by simp [Fragment.ofExpr, Expr.kind, Expr.ofFragment?]
  | .atom _ _ => by simp [Fragment.ofExpr, Expr.kind, Expr.ofFragment?]

theorem Expr.ofFragments?_ofExprs : (es : List Expr) → Expr.ofFragments?
      (Fragment.ofExprs es) = some es
  | [] => by simp [Fragment.ofExprs, Expr.ofFragments?]
  | e :: es =>
    by simp [Fragment.ofExprs, Expr.ofFragments?, Expr.ofFragment?_ofExpr e,
      Expr.ofFragments?_ofExprs es]

theorem Binding.ofFragments?_ofBindings :
    (bs : List Binding) → Binding.ofFragments? (Fragment.ofBindings bs) = some bs
  | [] => by simp [Fragment.ofBindings, Binding.ofFragments?]
  | .mk _ _ none :: bs =>
    by simp [Fragment.ofBindings, Binding.ofFragments?, Binding.ofFragments?_ofBindings bs]
  | .mk _ _ (some e) :: bs => by
    obtain ⟨k, pos, parts, he⟩ := Fragment.exists_ofExpr_eq e
    have hread := Expr.ofFragment?_ofExpr e
    rw [he] at hread
    simp [Fragment.ofBindings, he, Binding.ofFragments?, hread, Binding.ofFragments?_ofBindings bs]

theorem Branch.ofFragments?_ofBranches :
    (bs : List Branch) → Branch.ofFragments? (Fragment.ofBranches bs) = some bs
  | [] => by simp [Fragment.ofBranches, Branch.ofFragments?]
  | .mk _ _ e :: bs => by
    simp [Fragment.ofBranches, Branch.ofFragments?, Expr.ofFragment?_ofExpr e,
      Branch.ofFragments?_ofBranches bs]

end

theorem mapM_map_eq {α β : Type} {f : α → β} {g : β → Option α} (h : ∀ x, g (f x) = some x)
    (l : List α) : (l.map f).mapM g = some l := by
  induction l with
  | nil => rfl
  | cons x l ih => simp [h, ih]

theorem Feature.ofFragment?_ofFeature (f : Feature) :
    Feature.ofFragment? (Fragment.ofFeature f) = some f := by
  rcases f with ⟨name, type, _ | e⟩ | ⟨name, params, type, body⟩
  · rfl
  · obtain ⟨kind, pos, parts, he⟩ := Fragment.exists_ofExpr_eq e
    have hread := Expr.ofFragment?_ofExpr e
    rw [he] at hread
    simp [Fragment.ofFeature, he, Feature.ofFragment?, hread]
  · have hparam : ∀ p : Param, Param.ofFragment? (Fragment.ofParam p) = some p := fun _ => rfl
    have hparams := mapM_map_eq hparam params
    simp [Fragment.ofFeature, Feature.ofFragment?, hparams, Expr.ofFragment?_ofExpr]

theorem ClassDecl.ofFragment?_ofClass (c : ClassDecl) :
    ClassDecl.ofFragment? (Fragment.ofClass c) = some c := by
  have hfeatures := mapM_map_eq Feature.ofFragment?_ofFeature c.features
  obtain ⟨name, parent, features⟩ := c
  cases parent <;> simp [Fragment.ofClass, Fragment.ofToken?, ClassDecl.ofFragment?, hfeatures]

theorem Program.ofFragment?_ofProgram (p : Program) :
    Program.ofFragment? (Fragment.ofProgram p) = some p := by
  simp [Fragment.ofProgram, Program.ofFragment?, mapM_map_eq ClassDecl.ofFragment?_ofClass]

end AutoCool.Cool
