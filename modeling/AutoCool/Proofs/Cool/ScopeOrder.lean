import AutoCool.Proofs.Cool.Layout

/-!
# The scopes of expressions, in order

The scope of a part of an expression is the child of the scope of the expression at the same place.
So the scopes of an expression and of all below it can be read off the tree (`Expr.scopes`), in the
order of `Expr.nodes`.
-/

namespace AutoCool.Cool

variable {t t' : ScopeTree} {s : Nat} {is js : List Nat} {parts parts' : List Part}

/-- The scopes of an expression and of all below it, each one before those of its parts. -/
def Expr.scopes (t : ScopeTree) (s : Nat) (e : Expr) : List Nat :=
  s :: ((t.get s).children.zip e.parts.attach).flatMap fun x =>
    match h : x.2.1.expr with
    | none => []
    | some y =>
      have : y.size < e.size := Expr.size_lt_of_mem_parts x.2.2 h
      y.scopes t x.1
termination_by e.size

/-- The scopes of some parts, which stand beside the scopes of these parts, and of all below
them. -/
def scopesOfParts (t : ScopeTree) (is : List Nat) (parts : List Part) : List Nat :=
  (is.zip parts).flatMap fun x => x.2.expr.elim [] (Expr.scopes t x.1)

theorem Expr.scopes_eq (t : ScopeTree) (s : Nat) (e : Expr) :
    e.scopes t s = s :: scopesOfParts t (t.get s).children e.parts := by
  have hzip : (t.get s).children.zip e.parts = ((t.get s).children.zip e.parts.attach).map
      (Prod.map id Subtype.val) := by
    rw [← List.zip_map_right, List.attach_map_subtype_val]
  rw [Expr.scopes, scopesOfParts, hzip, List.flatMap_map]
  refine congrArg (s :: ·) (List.flatMap_congr fun x _ => ?_)
  simp only [Prod.map_fst, Prod.map_snd, id_eq]
  split
  · next h => rw [h, Option.elim_none]
  · next h => rw [h, Option.elim_some]

@[simp] theorem scopesOfParts_nil : scopesOfParts t [] [] = [] := rfl

@[simp] theorem scopesOfParts_cons :
    scopesOfParts t (i :: is) (part :: parts) =
      part.expr.elim [] (Expr.scopes t i) ++ scopesOfParts t is parts := by
  simp [scopesOfParts]

theorem FitsAll.length_eq (h : FitsAll t s is parts) : is.length = parts.length := by
  induction is generalizing parts with
  | nil =>
    cases h
    rfl
  | cons i is ih =>
    cases h with
    | cons _ _ _ _ hrest => rw [List.length_cons, List.length_cons, ih hrest]

theorem scopesOfParts_append (h : is.length = parts.length) :
    scopesOfParts t (is ++ js) (parts ++ parts') = scopesOfParts t is parts ++
      scopesOfParts t js parts' := by
  rw [scopesOfParts, List.zip_append h, List.flatMap_append]
  rfl

mutual

theorem Fits.scopes_congr {lead : List String} {s : Nat} {e : Expr} (h : Fits t lead s e)
    (hs : s < t.scopes.size) (hget : ∀ i, s ≤ i → i < t.scopes.size → t'.get i = t.get i) :
    e.scopes t' s = e.scopes t s :=
  match h with
  | .intro _ _ hparts => by
    rw [Expr.scopes_eq, Expr.scopes_eq, hget s (Nat.le_refl s) hs, hparts.scopes_congr fun i hi =>
      hget i (Nat.le_of_lt hi)]

theorem FitsAll.scopes_congr {s : Nat} {is : List Nat} {parts : List Part}
    (h : FitsAll t s is parts) (hget : ∀ i, s < i → i < t.scopes.size → t'.get i = t.get i) :
    scopesOfParts t' is parts = scopesOfParts t is parts :=
  match h with
  | .nil => rfl
  | @FitsAll.cons _ _ _ _ part _ hlt hsz _ hpart hrest => by
    rw [scopesOfParts_cons, scopesOfParts_cons, hrest.scopes_congr hget]
    cases he : part.expr with
    | none => rfl
    | some e =>
      exact congrArg (· ++ _) ((hpart e he).scopes_congr hsz fun j hj =>
        hget j (Nat.lt_of_lt_of_le hlt hj))

end

mutual

theorem Fits.length_scopes {lead : List String} {s : Nat} {e : Expr} (h : Fits t lead s e) :
    (e.scopes t s).length = e.size :=
  match h with
  | .intro _ _ hparts => by
    rw [Expr.scopes_eq, Expr.size_eq, List.length_cons, hparts.length_scopes]

theorem FitsAll.length_scopes {s : Nat} {is : List Nat} {parts : List Part}
    (h : FitsAll t s is parts) : (scopesOfParts t is parts).length = sizeOfParts parts :=
  match h with
  | .nil => rfl
  | @FitsAll.cons _ _ _ _ part _ _ _ _ hpart hrest => by
    rw [scopesOfParts_cons, sizeOfParts_cons, List.length_append, hrest.length_scopes]
    cases he : part.expr with
    | none => rfl
    | some e => rw [Option.elim_some, Option.elim_some, (hpart e he).length_scopes]

end

/-- The scopes of the expressions of a feature whose scope is `s`, in order. -/
def Feature.scopes (t : ScopeTree) (s : Nat) (f : Feature) : List Nat :=
  scopesOfParts t (t.get s).children f.parts

/-- The scopes of the expressions of some features, which stand beside the scopes of these
features. -/
def scopesOfFeatures (t : ScopeTree) (is : List Nat) (fs : List Feature) : List Nat :=
  (is.zip fs).flatMap fun x => x.2.scopes t x.1

/-- The scopes of the expressions of a class whose scope is `s`, in order. -/
def ClassDecl.scopes (t : ScopeTree) (s : Nat) (c : ClassDecl) : List Nat :=
  scopesOfFeatures t (t.get s).children c.features

/-- The scopes of the expressions of some classes, which stand beside the scopes of these
classes. -/
def scopesOfClasses (t : ScopeTree) (is : List Nat) (cs : List ClassDecl) : List Nat :=
  (is.zip cs).flatMap fun x => x.2.scopes t x.1

/-- The scopes of the expressions of a program, in order. -/
def Program.scopes (t : ScopeTree) (p : Program) : List Nat :=
  scopesOfClasses t (t.get ScopeTree.root).children p.classes

@[simp] theorem scopesOfFeatures_nil : scopesOfFeatures t [] [] = [] := rfl

@[simp] theorem scopesOfFeatures_cons :
    scopesOfFeatures t (i :: is) (f :: fs) = f.scopes t i ++ scopesOfFeatures t is fs := rfl

theorem scopesOfFeatures_append (h : is.length = fs.length) :
    scopesOfFeatures t (is ++ js) (fs ++ fs') = scopesOfFeatures t is fs ++
      scopesOfFeatures t js fs' := by
  rw [scopesOfFeatures, List.zip_append h, List.flatMap_append]
  rfl

@[simp] theorem scopesOfClasses_nil : scopesOfClasses t [] [] = [] := rfl

@[simp] theorem scopesOfClasses_cons :
    scopesOfClasses t (i :: is) (c :: cs) = c.scopes t i ++ scopesOfClasses t is cs := rfl

theorem scopesOfClasses_append (h : is.length = cs.length) :
    scopesOfClasses t (is ++ js) (cs ++ cs') = scopesOfClasses t is cs ++
      scopesOfClasses t js cs' := by
  rw [scopesOfClasses, List.zip_append h, List.flatMap_append]
  rfl

theorem FitsFeature.length_scopes (h : FitsFeature t s i f) :
    (f.scopes t i).length = f.nodes.length :=
  h.children.length_scopes.trans f.length_nodes.symm

theorem length_scopesOfFeatures (h : List.Forall₂ (FitsFeature t s) is fs) :
    (scopesOfFeatures t is fs).length = (fs.flatMap Feature.nodes).length := by
  induction h with
  | nil => rfl
  | cons hf _ ih =>
    rw [scopesOfFeatures_cons, List.flatMap_cons, List.length_append, List.length_append,
      hf.length_scopes, ih]

theorem FitsClass.length_scopes (h : FitsClass ts t s c) : (c.scopes t s).length = c.nodes.length :=
  length_scopesOfFeatures h.features

theorem length_scopesOfClasses (h : List.Forall₂ (FitsClass ts t) is cs) :
    (scopesOfClasses t is cs).length = (cs.flatMap ClassDecl.nodes).length := by
  induction h with
  | nil => rfl
  | cons hc _ ih =>
    rw [scopesOfClasses_cons, List.flatMap_cons, List.length_append, List.length_append,
      hc.length_scopes, ih]

theorem FitsFeature.scopes_congr (h : FitsFeature t s i f)
    (hget : ∀ j, i ≤ j → j < t.scopes.size → t'.get j = t.get j) :
    f.scopes t' i = f.scopes t i := by
  rw [Feature.scopes, Feature.scopes, hget i (Nat.le_refl i) h.lt_size,
    h.children.scopes_congr fun j hj => hget j (Nat.le_of_lt hj)]

theorem scopesOfFeatures_congr (h : List.Forall₂ (FitsFeature t s) is fs)
    (hget : ∀ j, s < j → j < t.scopes.size → t'.get j = t.get j) :
    scopesOfFeatures t' is fs = scopesOfFeatures t is fs := by
  induction h with
  | nil => rfl
  | cons hf _ ih =>
    rw [scopesOfFeatures_cons, scopesOfFeatures_cons, ih,
      hf.scopes_congr fun j hj => hget j (Nat.lt_of_lt_of_le hf.lt hj)]

theorem scopesOfClasses_congr (h : List.Forall₂ (FitsClass ts t) is cs)
    (hget : ∀ j, ScopeTree.root < j → j < t.scopes.size → t'.get j = t.get j) :
    scopesOfClasses t' is cs = scopesOfClasses t is cs := by
  induction h with
  | nil => rfl
  | cons hc _ ih =>
    rw [scopesOfClasses_cons, scopesOfClasses_cons, ih, ClassDecl.scopes, ClassDecl.scopes,
      hget _ hc.root_lt hc.lt_size,
      scopesOfFeatures_congr hc.features fun j hj => hget j (Nat.lt_trans hc.root_lt hj)]

/-! ## Every expression has a scope of its own -/

/-- A scope is another one or below it. -/
inductive Under (t : ScopeTree) (s : Nat) : Nat → Prop
  | refl : Under t s s
  | step {i j : Nat} : (t.get i).parent = some j → j < i → Under t s j → Under t s i

theorem Under.le (h : Under t s i) : s ≤ i := by
  induction h with
  | refl => exact Nat.le_refl s
  | step _ hlt _ ih => exact Nat.le_trans ih (Nat.le_of_lt hlt)

theorem Under.up (h : Under t i x) (hparent : (t.get i).parent = some s) (hlt : s < i) :
    Under t s x := by
  induction h with
  | refl => exact .step hparent hlt .refl
  | step hp hlt _ ih => exact .step hp hlt ih

theorem Under.eq_of_siblings (hi : Under t i x) (hj : Under t j x) (hpi : (t.get i).parent = some s)
    (hpj : (t.get j).parent = some s) (hsi : s < i) (hsj : s < j) : i = j := by
  induction hi with
  | refl =>
    cases hj with
    | refl => rfl
    | step hp _ hj =>
      cases hpi.symm.trans hp
      exact absurd hj.le (by omega)
  | step hp _ hi ih =>
    cases hj with
    | refl =>
      cases hpj.symm.trans hp
      exact absurd hi.le (by omega)
    | step hp' _ hj =>
      cases hp.symm.trans hp'
      exact ih hj

/-- Scopes that are different from one another and all below a scope. -/
def Apart (t : ScopeTree) (s : Nat) (l : List Nat) : Prop := l.Nodup ∧ ∀ x ∈ l, Under t s x

/-- Scopes that are apart below each one of some children of a scope are apart, and the scope is
none of them. -/
theorem Apart.flatMap (hnodup : is.Nodup) (hlen : is.length = l.length)
    (h : ∀ x ∈ is.zip l, ((t.get x.1).parent = some s ∧ s < x.1) ∧ Apart t x.1 (f x)) :
    Apart t s ((is.zip l).flatMap f) ∧ s ∉ (is.zip l).flatMap f := by
  have hfst : ((is.zip l).map (·.1)).Nodup := by
    rwa [List.map_fst_zip (Nat.le_of_eq hlen)]
  refine ⟨⟨List.pairwise_flatMap.2 ⟨fun x hx => (h x hx).2.1, ?_⟩, fun y hy => ?_⟩, fun hmem => ?_⟩
  · refine (List.pairwise_map.1 hfst).imp_of_mem fun {x x'} hx hx' hne y hy y' hy' heq => ?_
    obtain ⟨⟨hparent, hlt⟩, -, hunder⟩ := h x hx
    obtain ⟨⟨hparent', hlt'⟩, -, hunder'⟩ := h x' hx'
    exact hne ((hunder y hy).eq_of_siblings (heq ▸ hunder' y' hy') hparent hparent' hlt hlt')
  · obtain ⟨x, hx, hy⟩ := List.mem_flatMap.1 hy
    obtain ⟨⟨hparent, hlt⟩, -, hunder⟩ := h x hx
    exact (hunder y hy).up hparent hlt
  · obtain ⟨x, hx, hy⟩ := List.mem_flatMap.1 hmem
    obtain ⟨⟨-, hlt⟩, -, hunder⟩ := h x hx
    exact absurd (hunder s hy).le (Nat.not_le.2 hlt)

theorem FitsAll.of_mem_zip (h : FitsAll t s is parts) (hmem : x ∈ is.zip parts) :
    ((t.get x.1).parent = some s ∧ s < x.1) ∧ ∀ e, x.2.expr = some e → Fits t x.2.names x.1 e := by
  induction is generalizing parts with
  | nil => simp at hmem
  | cons i is ih =>
    cases h with
    | cons hlt _ hparent hpart hrest =>
      rcases List.mem_cons.1 hmem with rfl | hmem
      · exact ⟨⟨hparent, hlt⟩, hpart⟩
      · exact ih hrest hmem

theorem FitsAll.apart (hnodup : is.Nodup) (h : FitsAll t s is parts)
    (hpart : ∀ part ∈ parts, ∀ e, part.expr = some e → ∀ i, Fits t part.names i e →
      Apart t i (e.scopes t i)) : Apart t s (scopesOfParts t is parts) ∧
    s ∉ scopesOfParts t is parts := by
  refine Apart.flatMap hnodup h.length_eq fun x hx => ⟨(h.of_mem_zip hx).1, ?_⟩
  cases he : x.2.expr with
  | none => exact ⟨List.nodup_nil, fun _ hmem => nomatch hmem⟩
  | some e => exact hpart x.2 (List.of_mem_zip hx).2 e he x.1 ((h.of_mem_zip hx).2 e he)

theorem Fits.apart (ht : t.Tidy) (h : Fits t lead s e) : Apart t s (e.scopes t s) := by
  induction e using Expr.induction_parts generalizing s lead with
  | h e ih =>
    obtain ⟨-, -, hparts⟩ := h
    obtain ⟨⟨hnodup, hunder⟩, hnot⟩ := hparts.apart (ht.children_nodup s) fun part hp x hx i hfit =>
        ih part hp x hx hfit
    rw [Expr.scopes_eq]
    exact ⟨List.nodup_cons.2 ⟨hnot, hnodup⟩, List.forall_mem_cons.2 ⟨.refl, hunder⟩⟩

theorem FitsFeature.apart (ht : t.Tidy) (h : FitsFeature t s i f) : Apart t i (f.scopes t i) :=
  (h.children.apart (ht.children_nodup i) fun _ _ _ _ _ hfit => hfit.apart ht).1

theorem FitsClass.apart (ht : t.Tidy) (h : FitsClass ts t s c) : Apart t s (c.scopes t s) := by
  refine (Apart.flatMap (ht.children_nodup s) h.features.length_eq fun x hx => ?_).1
  have hf := List.forall₂_zip h.features hx
  exact ⟨⟨hf.parent_eq, hf.lt⟩, hf.apart ht⟩

theorem FitsProgram.nodup_scopes (ht : t.Tidy) (h : FitsProgram ts t p) : (p.scopes t).Nodup := by
  refine (Apart.flatMap (t := t) (s := ScopeTree.root) (ht.children_nodup _)
    (List.Forall₂.length_eq h) fun x hx => ?_).1.1
  have hc := List.forall₂_zip h hx
  exact ⟨⟨hc.parent_eq, hc.root_lt⟩, hc.apart ht⟩

end AutoCool.Cool
