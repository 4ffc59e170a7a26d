import Mathlib.Data.List.Induction
import AutoCool.LR1.Evaluation
import AutoCool.Proofs.Grammar.Built

/-!
# Syntax trees

A syntax tree has tokens at its leaves and productions at its nodes. Read bottom up and from left to
right it is what a parser records: the productions of its reductions, its steps, and the tokens it
reads. Its value is found from the leaves upwards, each node by the rule of its production.
Evaluating the record of a tree gives the value of the tree (`SyntaxTree.Fits.evaluate_eq`).
-/

namespace AutoCool.LR1

/-- A syntax tree. -/
inductive SyntaxTree (ρ : Type)
  | leaf (t : Token)
  | node (p : Production ρ) (children : List (SyntaxTree ρ))

namespace SyntaxTree

variable {ρ α β : Type}

@[induction_eliminator]
theorem induction {motive : SyntaxTree ρ → Prop} (leaf : ∀ t, motive (.leaf t))
    (node : ∀ p ts, (∀ t ∈ ts, motive t) → motive (.node p ts)) : ∀ t, motive t
  | .leaf t => leaf t
  | .node p ts => node p ts fun t _ => induction leaf node t

/-! ### What is read off a tree -/

mutual

/-- What a tree becomes when its leaves are replaced, and then its nodes from below. -/
def fold (leaf : Token → β) (node : Production ρ → List β → β) : SyntaxTree ρ → β
  | .leaf t => leaf t
  | .node p ts => node p (foldAll leaf node ts)

def foldAll (leaf : Token → β) (node : Production ρ → List β → β) : List (SyntaxTree ρ) → List β
  | [] => []
  | t :: ts => fold leaf node t :: foldAll leaf node ts

end

theorem foldAll_eq_map (leaf : Token → β) (node : Production ρ → List β → β)
    (ts : List (SyntaxTree ρ)) : foldAll leaf node ts = ts.map (fold leaf node) := by
  induction ts with
  | nil => rfl
  | cons t ts ih => rw [foldAll, ih, List.map_cons]

theorem fold_node (leaf : Token → β) (node : Production ρ → List β → β) (p : Production ρ)
    (ts : List (SyntaxTree ρ)) :
    fold leaf node (.node p ts) = node p (ts.map (fold leaf node)) := by
  rw [fold, foldAll_eq_map]

/-- The symbol at the root. -/
def symbol : SyntaxTree ρ → Symbol
  | .leaf t => t.type
  | .node p _ => p.head

/-- The tokens at the leaves. -/
def leaves : SyntaxTree ρ → List Token := fold (fun t => [t]) fun _ ls => ls.flatten

/-- The productions bottom up, each one after those below it. -/
def productions : SyntaxTree ρ → List (Production ρ) :=
  fold (fun _ => []) fun p ls => ls.flatten ++ [p]

/-- The steps that build the tree bottom up. -/
def operations : SyntaxTree ρ → List Operation :=
  fold (fun _ => [.shift]) fun _ ls => ls.flatten ++ [.reduce]

/-- The value of a tree: that of the token for a leaf, and for a node what the rule of its
production makes of the values of the children. -/
def value (apply : ρ → List α → Except EvaluationError α) (leaf : Token → α) :
    SyntaxTree ρ → Except EvaluationError α :=
  fold (fun t => .ok (leaf t)) fun p vs => do
    let vs ← vs.mapM id
    let rule ← Evaluation.ruleOf p
    apply rule vs

variable {p : Production ρ} {ts : List (SyntaxTree ρ)}

@[simp] theorem leaves_leaf (t : Token) : (leaf t : SyntaxTree ρ).leaves = [t] := by
  rw [leaves, fold]

@[simp] theorem leaves_node : (node p ts).leaves = ts.flatMap leaves := by
  rw [leaves, fold_node, List.flatMap_def]

@[simp] theorem productions_leaf (t : Token) : (leaf t : SyntaxTree ρ).productions = [] := by
  rw [productions, fold]

@[simp] theorem productions_node : (node p ts).productions = ts.flatMap productions ++ [p] := by
  rw [productions, fold_node, List.flatMap_def]

@[simp] theorem operations_leaf (t : Token) : (leaf t : SyntaxTree ρ).operations = [.shift] := by
  rw [operations, fold]

@[simp] theorem operations_node : (node p ts).operations = ts.flatMap operations ++ [.reduce] := by
  rw [operations, fold_node, List.flatMap_def]

variable {apply : ρ → List α → Except EvaluationError α} {leaf : Token → α}

@[simp] theorem value_leaf (t : Token) : (SyntaxTree.leaf t).value apply leaf = .ok (leaf t) := by
  rw [value, fold]

theorem value_node : (node p ts).value apply leaf =
    ts.mapM (value apply leaf) >>= fun vs => Evaluation.ruleOf p >>= fun rule => apply rule vs := by
  rw [value, fold_node, List.mapM_map]
  rfl

/-! ### Trees of a grammar -/

/-- A tree that follows a grammar: at the leaves are terminals, and below a node are, name by name,
the symbols of the right side of its production. Where names tell the symbols of a grammar apart
these are the syntax trees of its derivations (`Fits.spells`). -/
inductive Fits (g : Grammar ρ) : SyntaxTree ρ → Prop
  | leaf {t : Token} : t.type ∈ g.terminals → Fits g (.leaf t)
  | node {p : Production ρ} {w : List Symbol} {ts : List (SyntaxTree ρ)} : g.Rewrites p w →
    ts.map (·.symbol.name) = w.map (·.name) → (∀ t ∈ ts, Fits g t) → Fits g (.node p ts)

end SyntaxTree

theorem length_of_word? {b : Body ρ} {w : List Symbol} (h : b.word? = some w) :
    b.length = w.length := by
  cases b with
  | epsilon => cases h; rfl
  | sentence symbols => cases h; rfl
  | stray t => cases h

/-- The rule of the head is the only one of a production. -/
def Synthesized {ρ : Type} (p : Production ρ) : Prop :=
  ∃ rule slots, p.slots = some (some (.rule rule) :: slots) ∧ ∀ slot ∈ slots, slot = none

theorem Evaluation.ruleOf_eq {p : Production ρ} {rule : ρ} {slots : List (Option (Slot ρ))}
    (hslots : p.slots = some (some (.rule rule) :: slots)) (hnone : ∀ slot ∈ slots, slot = none) :
    Evaluation.ruleOf p = .ok rule := by
  have hany : slots.any Option.isSome = false := List.any_eq_false.mpr fun slot hslot => by
    simp [hnone slot hslot]
  simp [Evaluation.ruleOf, hslots, hany]

theorem Synthesized.ruleOf_eq {p : Production ρ} (h : Synthesized p) :
    ∃ rule, Evaluation.ruleOf p = .ok rule := by
  obtain ⟨rule, slots, hslots, hnone⟩ := h
  exact ⟨rule, Evaluation.ruleOf_eq hslots hnone⟩

namespace SyntaxTree

variable {ρ α : Type} {g : Grammar ρ} {p : Production ρ} {t : SyntaxTree ρ}
  {ts : List (SyntaxTree ρ)}

theorem Fits.length_eq (h : Fits g (.node p ts)) : ts.length = p.body.length := by
  cases h with
  | node hp hnames _ =>
    rw [length_of_word? hp.2]
    simpa using congrArg List.length hnames

theorem Fits.type_mem (h : Fits g t) : ∀ u ∈ t.leaves, u.type ∈ g.terminals := by
  induction h with
  | leaf ht => simpa using ht
  | node _ _ _ ih =>
    intro u hu
    rw [leaves_node] at hu
    obtain ⟨t, ht, hu⟩ := List.mem_flatMap.mp hu
    exact ih t ht u hu

theorem Fits.production_mem (h : Fits g t) : ∀ q ∈ t.productions, q ∈ g.productions := by
  induction h with
  | leaf _ => simp
  | node hp _ _ ih =>
    intro q hq
    rw [productions_node, List.mem_append, List.mem_singleton] at hq
    rcases hq with hq | rfl
    · obtain ⟨t, ht, hq⟩ := List.mem_flatMap.mp hq
      exact ih t ht q hq
    · exact hp.1

theorem Fits.symbol_mem (hg : g.WF) (h : Fits g t) : t.symbol ∈ g.terminals ++ g.nonterminals := by
  cases h with
  | leaf ht => exact List.mem_append_left _ ht
  | node hp _ _ => exact List.mem_append_right _ (hg.head_mem _ (hg.filed_eq ▸ hp.1))

theorem eq_of_map_name {l w' : List Symbol} (hl : (l.map (·.name)).Nodup) (hw : ∀ s ∈ w, s ∈ l)
    (hw' : ∀ s ∈ w', s ∈ l) (h : w.map (·.name) = w'.map (·.name)) : w = w' := by
  induction w generalizing w' with
  | nil => exact (List.map_eq_nil_iff.mp h.symm).symm
  | cons s w ih =>
    obtain ⟨s', w', rfl, hs, hrest⟩ := List.map_eq_cons_iff.mp h.symm
    obtain rfl := List.inj_on_of_nodup_map hl (hw' s' (.head _)) (hw s (.head _)) hs
    rw [ih (fun t ht => hw t (.tail _ ht)) (fun t ht => hw' t (.tail _ ht)) hrest.symm]

theorem spells_flatMap (h : ∀ t ∈ ts, g.Spells [t.symbol] t.productions (t.leaves.map (·.type))) :
    g.Spells (ts.map symbol) (ts.flatMap productions) ((ts.flatMap leaves).map (·.type)) := by
  induction ts with
  | nil => exact .nil
  | cons t ts ih =>
    rw [List.map_cons, List.flatMap_cons, List.flatMap_cons, List.map_append]
    exact (h t (.head _)).append (ih fun u hu => h u (.tail t hu))

theorem Fits.map_symbol {w : List Symbol} (hg : g.WF) (hplain : g.Plain)
    (hnames : ((g.terminals ++ g.nonterminals).map (·.name)).Nodup) (hp : g.Rewrites p w)
    (hsymbols : ts.map (·.symbol.name) = w.map (·.name)) (hts : ∀ t ∈ ts, Fits g t) :
    ts.map symbol = w := by
  obtain ⟨w', hw', hmem⟩ := hplain p hp.1
  cases hw'.symm.trans hp.2
  refine eq_of_map_name hnames (fun s hs => ?_) hmem (by rw [List.map_map]; exact hsymbols)
  obtain ⟨t, ht, rfl⟩ := List.mem_map.mp hs
  exact (hts t ht).symbol_mem hg

theorem Fits.spells (hg : g.WF) (hplain : g.Plain)
    (hnames : ((g.terminals ++ g.nonterminals).map (·.name)).Nodup) (h : Fits g t) :
    g.Spells [t.symbol] t.productions (t.leaves.map (·.type)) := by
  induction h with
  | @leaf t ht =>
    rw [productions_leaf, leaves_leaf]
    exact .terminal (hg.isTerminal ht) .nil
  | @node p w ts hp hsymbols hts ih =>
    rw [productions_node, leaves_node]
    have hbody := spells_flatMap ih
    rw [Fits.map_symbol hg hplain hnames hp hsymbols hts] at hbody
    simpa [symbol] using Grammar.Spells.production hp hbody .nil

/-! ### The tree of a record -/

/-- A record that ends with the productions and the leaves of the tree ends with no other tree of
its symbol. -/
def Determined (g : Grammar ρ) (t : SyntaxTree ρ) : Prop :=
  ∀ (t' : SyntaxTree ρ) (ps ps' : List (Production ρ)) (us us' : List Token), Fits g t' →
    t.symbol = t'.symbol →
    ps ++ t.productions = ps' ++ t'.productions → us ++ t.leaves = us' ++ t'.leaves → t = t' ∧
      ps = ps' ∧ us = us'

theorem eq_of_append_flatMap (h : ∀ t ∈ ts, Determined g t) (hts' : ∀ t ∈ ts', Fits g t)
    (hsymbols : ts.map symbol = ts'.map symbol)
    (hps : ps ++ ts.flatMap productions = ps' ++ ts'.flatMap productions)
    (hus : us ++ ts.flatMap leaves = us' ++ ts'.flatMap leaves) :
    ts = ts' ∧ ps = ps' ∧ us = us' := by
  induction ts using List.reverseRecOn generalizing ts' with
  | nil =>
    obtain rfl := List.map_eq_nil_iff.mp hsymbols.symm
    exact ⟨rfl, by simpa using hps, by simpa using hus⟩
  | append_singleton ts t ih =>
    obtain ⟨ts1, ts2, rfl, hts1, hts2⟩ :=
      List.map_eq_append_iff.mp ((List.map_append ▸ hsymbols).symm)
    obtain ⟨t', rfl, ht'⟩ := List.map_eq_singleton_iff.mp hts2
    simp only [List.flatMap_append, List.flatMap_singleton, ← List.append_assoc] at hps hus
    obtain ⟨rfl, hps, hus⟩ := h t (by simp) t' _ _ _ _ (hts' t' (by simp)) ht'.symm hps hus
    obtain ⟨rfl, rfl, rfl⟩ := ih (fun t ht => h t (List.mem_append_left _ ht))
      (fun t ht => hts' t (List.mem_append_left _ ht)) hts1.symm hps hus
    exact ⟨rfl, rfl, rfl⟩

/-- A record is read backwards: its last production tells what the last tree is made of. -/
theorem Fits.determined (hg : g.WF) (hplain : g.Plain)
    (hnames : ((g.terminals ++ g.nonterminals).map (·.name)).Nodup) (h : Fits g t) :
    Determined g t := by
  have hne {u : Token} {p : Production ρ} {w : List Symbol} (hu : u.type ∈ g.terminals)
      (hp : g.Rewrites p w) :
      u.type ≠ p.head := by
    intro he
    have hterm := hg.isTerminal hu
    rw [he, hg.headsNonterminal.not_isTerminal hp] at hterm
    cases hterm
  induction h with
  | @leaf u hu =>
    intro t' ps ps' us us' h' hs hps hus
    cases h' with
    | leaf _ =>
      rw [leaves_leaf, leaves_leaf] at hus
      obtain ⟨rfl, hu⟩ := List.append_inj' hus rfl
      exact ⟨congrArg _ (List.cons.inj hu).1, by simpa using hps, rfl⟩
    | node hp _ _ => exact absurd hs (hne hu hp)
  | @node p w ts hp hsymbols hts ih =>
    intro t' ps ps' us us' h' hs hps hus
    cases h' with
    | leaf hu => exact absurd hs.symm (hne hu hp)
    | @node p' w' ts' hp' hsymbols' hts' =>
      rw [productions_node, productions_node, ← List.append_assoc, ← List.append_assoc] at hps
      obtain ⟨hrest, hlast⟩ := List.append_inj' hps rfl
      obtain rfl := (List.cons.inj hlast).1
      have hw : ts.map symbol = ts'.map symbol := by
        rw [Fits.map_symbol hg hplain hnames hp hsymbols hts,
          Fits.map_symbol hg hplain hnames hp' hsymbols' hts']
        exact Option.some.inj (hp.2.symm.trans hp'.2)
      rw [leaves_node, leaves_node] at hus
      obtain ⟨rfl, rfl, rfl⟩ := eq_of_append_flatMap ih hts' hw hrest hus
      exact ⟨rfl, rfl, rfl⟩

/-! ### The value of a record -/

section Evaluate

variable {apply : ρ → List α → Except EvaluationError α} {leaf : Token → α}

/-- What an evaluation does with the record of a tree: it puts the value of the tree on its
stack. -/
def Replays (apply : ρ → List α → Except EvaluationError α) (leaf : Token → α) (t : SyntaxTree ρ) :
    Prop :=
  ∀ stack ps rest, t.operations.foldlM (Evaluation.step apply leaf)
    ⟨stack, t.productions ++ ps, t.leaves ++ rest⟩ =
    t.value apply leaf >>= fun v => .ok ⟨v :: stack, ps, rest⟩

theorem foldlM_flatMap (h : ∀ t ∈ ts, t.Replays apply leaf) (stack : List α)
    (ps : List (Production ρ)) (rest : List Token) :
    (ts.flatMap operations).foldlM (Evaluation.step apply leaf)
      ⟨stack, ts.flatMap productions ++ ps, ts.flatMap leaves ++ rest⟩ =
      ts.mapM (value apply leaf) >>= fun vs => .ok ⟨vs.reverse ++ stack, ps, rest⟩ := by
  induction ts generalizing stack with
  | nil => rfl
  | cons t ts ih =>
    rw [List.flatMap_cons, List.flatMap_cons, List.flatMap_cons, List.foldlM_append,
      List.append_assoc, List.append_assoc,
      h t (.head _), List.mapM_cons]
    cases t.value apply leaf with
    | error e => rfl
    | ok v =>
      refine (ih (fun u hu => h u (.tail t hu)) (v :: stack)).trans ?_
      cases ts.mapM (value apply leaf) with
      | error e => rfl
      | ok vs => simp [bind, Except.bind, pure, Except.pure]

theorem length_of_mapM {f : γ → Except EvaluationError α} {l : List γ} {vs : List α}
    (h : l.mapM f = .ok vs) : vs.length = l.length := by
  induction l generalizing vs with
  | nil => cases h; rfl
  | cons x l ih =>
    rw [List.mapM_cons] at h
    cases hx : f x with
    | error e => rw [hx] at h; cases h
    | ok v =>
      rw [hx] at h
      cases hl : l.mapM f with
      | error e => rw [hl] at h; cases h
      | ok vs' =>
        rw [hl] at h
        cases h
        rw [List.length_cons, List.length_cons, ih hl]

theorem Fits.replays (h : Fits g t) : t.Replays apply leaf := by
  induction h with
  | leaf ht =>
    intro stack ps rest
    simp [Evaluation.step, bind, Except.bind, pure, Except.pure]
  | @node p w ts hp hnames hts ih =>
    intro stack ps rest
    have hlength := Fits.length_eq (.node hp hnames hts)
    rw [operations_node, productions_node, leaves_node, List.foldlM_append, List.append_assoc,
      List.singleton_append,
      foldlM_flatMap ih, value_node]
    cases hvs : ts.mapM (value apply leaf) with
    | error e => rfl
    | ok vs =>
      -- the values of the children are on top of the stack
      have htake : ((vs.reverse ++ stack).take p.body.length).reverse = vs := by
        rw [List.take_left' (by rw [List.length_reverse, length_of_mapM hvs, hlength]),
          List.reverse_reverse]
      have hdrop : (vs.reverse ++ stack).drop p.body.length = stack :=
        List.drop_left' (by rw [List.length_reverse, length_of_mapM hvs, hlength])
      simp only [bind, Except.bind, List.foldlM_cons, List.foldlM_nil, Evaluation.step,
        htake, hdrop]
      cases Evaluation.ruleOf p with
      | error e => rfl
      | ok rule =>
        simp only
        cases apply rule vs <;> rfl

theorem Fits.evaluate_eq (h : Fits g t) (hne : t.productions ≠ []) (heof : eof.type.kind = .endMark)
    (rest : List Token) : evaluate apply leaf t.productions t.operations (t.leaves ++ eof :: rest) =
      some <$> t.value apply leaf := by
  have hreplays : t.Replays apply leaf := h.replays
  have hreplay := hreplays [] [] (eof :: rest)
  rw [List.append_nil] at hreplay
  have hoperations : t.operations ≠ [] := by cases t <;> simp
  have hsome : (t.productions.isEmpty || t.operations.isEmpty ||
      (t.leaves ++ eof :: rest).isEmpty) = false := by
    simp [hne, hoperations]
  rw [evaluate, hsome, if_neg Bool.false_ne_true, hreplay]
  cases t.value apply leaf with
  | error e => rfl
  | ok v => simp [bind, Except.bind, heof, pure, Except.pure, Functor.map, Except.map]

theorem exists_of_mapM_error {f : γ → Except EvaluationError α} {l : List γ} {e : EvaluationError}
    (h : l.mapM f = .error e) : ∃ x ∈ l, f x = .error e := by
  induction l with
  | nil => cases h
  | cons x l ih =>
    rw [List.mapM_cons] at h
    cases hx : f x with
    | error e' =>
      rw [hx] at h
      cases h
      exact ⟨x, .head _, hx⟩
    | ok v =>
      rw [hx] at h
      cases hl : l.mapM f with
      | error e' =>
        rw [hl] at h
        cases h
        obtain ⟨y, hy, he⟩ := ih hl
        exact ⟨y, .tail x hy, he⟩
      | ok vs => rw [hl] at h; cases h

/-- Where each production has one rule, only a rule can be the reason that a tree has no value. -/
theorem apply_of_value_error (hrules : ∀ q ∈ t.productions, Synthesized q) {e : EvaluationError}
    (h : t.value apply leaf = .error e) : ∃ rule vs, apply rule vs = .error e := by
  induction t with
  | leaf t => rw [value_leaf] at h; cases h
  | node p ts ih =>
    rw [productions_node] at hrules
    rw [value_node] at h
    cases hvs : ts.mapM (value apply leaf) with
    | error e' =>
      rw [hvs] at h
      cases h
      obtain ⟨u, hu, he⟩ := exists_of_mapM_error hvs
      exact ih u hu (fun q hq => hrules q
        (List.mem_append_left _ (List.mem_flatMap.mpr ⟨u, hu, hq⟩))) he
    | ok vs =>
      obtain ⟨rule, hrule⟩ := (hrules p (by simp)).ruleOf_eq
      rw [hvs, hrule] at h
      exact ⟨rule, vs, h⟩

end Evaluate

end SyntaxTree

end AutoCool.LR1
