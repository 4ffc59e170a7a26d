import AutoCool.LR1.Table
import AutoCool.Proofs.Grammar.First

/-!
# What the rows of a state hold

A cell of a row holds what the items of the state ask for there, and nothing else (`rowsOf_ok`).
When no cell holds two things, the first one is the only one. That no registration found two things
in its cell says so of the rows in the end (`Rows.WF`).
-/

namespace AutoCool.LR1

namespace Row

variable {α : Type} {row : Row α} {s s' : Symbol} {v v' : α}

/-- The cell of the symbol holds the value. -/
def Holds (row : Row α) (s : Symbol) (v : α) : Prop := ∃ cell, (s, cell) ∈ row ∧ v ∈ cell

/-- The symbols of the cells are different, no cell is empty, and none holds a value twice. -/
structure WF (row : Row α) : Prop where
  nodup : (row.map (·.1)).Nodup
  ne_nil : ∀ e ∈ row, e.2 ≠ []
  cell_nodup : ∀ e ∈ row, e.2.Nodup

theorem WF.nil : WF ([] : Row α) := ⟨List.nodup_nil, by simp, by simp⟩

section Register

variable [DecidableEq α]

theorem holds_register : (row.register s v).Holds s' v' ↔ row.Holds s' v' ∨ s' = s ∧ v' = v := by
  induction row with
  | nil => simp [register, Holds]
  | cons e row ih =>
    obtain ⟨t, cell⟩ := e
    rw [register]
    by_cases ht : t = s
    · subst ht
      rw [if_pos (beq_self_eq_true t)]
      simp only [Holds, List.mem_cons, or_and_right, exists_or, Prod.mk.injEq, and_assoc,
        exists_and_left, exists_eq_left]
      have hcell : v' ∈ (if v ∈ cell then cell else cell ++ [v]) ↔ v' ∈ cell ∨ v' = v := by
        split
        · exact ⟨.inl, fun h => h.elim id (· ▸ ‹_›)⟩
        · simp
      rw [hcell, and_or_left]
      exact or_right_comm
    · rw [if_neg (by simpa using ht)]
      simp only [Holds, List.mem_cons, or_and_right, exists_or] at ih ⊢
      rw [ih, or_assoc]

theorem mem_keys_register (h : s' ∈ (row.register s v).map (·.1)) :
    s' ∈ row.map (·.1) ∨ s' = s := by
  induction row with
  | nil => simpa [register] using h
  | cons e row ih =>
    obtain ⟨t, cell⟩ := e
    rw [register] at h
    split at h
    · exact .inl (by simpa using h)
    · rcases List.mem_cons.mp h with rfl | h
      · exact .inl (.head _)
      · exact (ih h).imp_left (.tail _)

theorem WF.register (h : row.WF) (s : Symbol) (v : α) : (row.register s v).WF := by
  induction row with
  | nil => exact ⟨by simp [Row.register], by simp [Row.register], by simp [Row.register]⟩
  | cons e row ih =>
    obtain ⟨t, cell⟩ := e
    have hnodup := List.nodup_cons.mp h.nodup
    have hrow := ih ⟨hnodup.2, fun e he => h.ne_nil e (.tail _ he),
      fun e he => h.cell_nodup e (.tail _ he)⟩
    rw [Row.register]
    split
    · refine ⟨h.nodup, fun e he => ?_, fun e he => ?_⟩
      · rcases List.mem_cons.mp he with rfl | he
        · dsimp only
          split
          · exact h.ne_nil _ (.head _)
          · simp
        · exact h.ne_nil e (.tail _ he)
      · rcases List.mem_cons.mp he with rfl | he
        · have hcell := h.cell_nodup _ (.head _)
          dsimp only
          split
          · exact hcell
          · rename_i hv
            exact List.nodup_append.mpr ⟨hcell, List.nodup_singleton v, fun a ha b hb he =>
              hv (List.mem_singleton.mp hb ▸ he ▸ ha)⟩
        · exact h.cell_nodup e (.tail _ he)
    · rename_i hne
      refine ⟨List.nodup_cons.mpr ⟨fun hmem => ?_, hrow.nodup⟩, fun e he => ?_, fun e he => ?_⟩
      · rcases mem_keys_register hmem with hmem | heq
        · exact hnodup.1 hmem
        · exact hne (beq_iff_eq.mpr heq)
      · rcases List.mem_cons.mp he with rfl | he
        · exact h.ne_nil _ (.head _)
        · exact hrow.ne_nil e he
      · rcases List.mem_cons.mp he with rfl | he
        · exact h.cell_nodup _ (.head _)
        · exact hrow.cell_nodup e he

end Register

theorem holds_of_first? (h : row.first? s = some v) : row.Holds s v := by
  obtain ⟨cell, hcell, hhead⟩ := Option.bind_eq_some_iff.mp h
  obtain ⟨l1, l2, rfl, -⟩ := List.lookup_eq_some_iff.mp hcell
  exact ⟨cell, by simp, List.mem_of_head? hhead⟩

theorem WF.first?_exists (hrow : row.WF) (h : row.Holds s v) : ∃ v', row.first? s = some v' := by
  obtain ⟨cell, hcell, -⟩ := h
  obtain ⟨v', rest, rfl⟩ := List.exists_cons_of_ne_nil (hrow.ne_nil _ hcell)
  exact ⟨v', by rw [first?, lookup_eq_of_mem hrow.nodup hcell]; rfl⟩

/-- No cell holds two values. -/
def Single (row : Row α) : Prop := ∀ s v v', row.Holds s v → row.Holds s v' → v = v'

theorem WF.first?_of_holds (hrow : row.WF) (hsingle : row.Single) (h : row.Holds s v) :
    row.first? s = some v := by
  obtain ⟨v', hv'⟩ := hrow.first?_exists h
  rw [hv', hsingle s v' v (holds_of_first? hv') h]

theorem WF.isSingle_iff (hrow : row.WF) (h : row.Holds s v) :
    row.isSingle s = true ↔ ∀ v', row.Holds s v' → v' = v := by
  obtain ⟨cell, hcell, hv⟩ := h
  have hlookup := lookup_eq_of_mem hrow.nodup hcell
  rw [isSingle, hlookup, Option.any_some, beq_iff_eq]
  constructor
  · rintro hlen v' ⟨cell', hcell', hv'⟩
    cases hlookup.symm.trans (lookup_eq_of_mem hrow.nodup hcell')
    obtain ⟨u, rfl⟩ := List.length_eq_one_iff.mp hlen
    rw [List.mem_singleton.mp hv, List.mem_singleton.mp hv']
  · intro hall
    refine List.length_eq_one_iff.mpr ⟨v, List.perm_singleton.mp ?_⟩
    refine (List.perm_ext_iff_of_nodup (hrow.cell_nodup _ hcell) (List.nodup_singleton v)).mpr
      fun v' => ?_
    rw [List.mem_singleton]
    exact ⟨fun hv' => hall v' ⟨cell, hcell, hv'⟩, fun he => he ▸ hv⟩

theorem WF.single_register [DecidableEq α] (hrow : row.WF) :
    (row.register s v).Single ↔ row.Single ∧ (row.register s v).isSingle s = true := by
  have hv : (row.register s v).Holds s v := holds_register.mpr (.inr ⟨rfl, rfl⟩)
  rw [(hrow.register s v).isSingle_iff hv]
  constructor
  · exact fun h => ⟨fun t u u' hu hu' => h t u u' (holds_register.mpr (.inl hu))
      (holds_register.mpr (.inl hu')),
      fun u hu => h s u v hu hv⟩
  · rintro ⟨hsingle, hs⟩ t u u' hu hu'
    by_cases ht : t = s
    · subst ht
      rw [hs u hu, hs u' hu']
    · exact hsingle t u u' ((holds_register.mp hu).resolve_right fun h => ht h.1)
        ((holds_register.mp hu').resolve_right fun h => ht h.1)

end Row

/-! ### Both rows of a state -/

/-- The rows are in order, and the answers of the registrations say whether a cell holds two
values. -/
structure Rows.WF (rows : Rows) : Prop where
  action_wf : rows.action.WF
  goto_wf : rows.goto.WF
  single : rows.single = true ↔ rows.action.Single ∧ rows.goto.Single

namespace Rows.WF

variable {rows : Rows} {s : Symbol} {v : Action}

theorem empty : WF {} := ⟨.nil, .nil, by simp [Row.Single, Row.Holds]⟩

theorem act (h : rows.WF) : (rows.act s v).WF where
  action_wf := h.action_wf.register s v
  goto_wf := h.goto_wf
  single := by rw [Rows.act, Bool.and_eq_true, h.single, h.action_wf.single_register,
    and_right_comm]

theorem move (h : rows.WF) : (rows.move s j).WF where
  action_wf := h.action_wf
  goto_wf := h.goto_wf.register s j
  single := by rw [Rows.move, Bool.and_eq_true, h.single, h.goto_wf.single_register, and_assoc]

theorem foldl_act (h : rows.WF) {symbols : List Symbol} :
    WF (symbols.foldl (fun rows s => rows.act s v) rows) := by
  induction symbols generalizing rows with
  | nil => exact h
  | cons s symbols ih => exact ih h.act

end Rows.WF

theorem Rows.holds_foldl_act {rows : Rows} {v : Action} {symbols : List Symbol} :
    (symbols.foldl (fun rows s => rows.act s a) rows).action.Holds s v ↔
      rows.action.Holds s v ∨ s ∈ symbols ∧ v = a := by
  induction symbols generalizing rows with
  | nil => simp
  | cons s' symbols ih =>
    rw [List.foldl_cons, ih, Rows.act, Row.holds_register, List.mem_cons, or_and_right, or_assoc]

theorem Rows.goto_foldl_act {rows : Rows} {symbols : List Symbol} :
    (symbols.foldl (fun rows s => rows.act s a) rows).goto = rows.goto := by
  induction symbols generalizing rows with
  | nil => rfl
  | cons s symbols ih => exact ih

/-! ### What items ask for -/

variable {ρ : Type} {g : Grammar ρ} {rules : Array (Rule ρ)} {q : State (List Item)} {x : Item}

/-- What an item of a state asks of the actions of the state. -/
inductive AsksAction (g : Grammar ρ) (rules : Array (Rule ρ)) (q : State (List Item)) (x : Item) :
    Symbol → Action → Prop
  | shift {r : Rule ρ} {s j} : rules[x.rule]? = some r → r.next? x.dot = some s →
      s.isTerminal = true →
    destination q s.name = .ok j → AsksAction g rules q x s (.shift j)
  | accept {r : Rule ρ} : rules[x.rule]? = some r → r.next? x.dot = none →
    g.start = some r.production.head → AsksAction g rules q x g.endMark .accept
  | reduce {r : Rule ρ} {s} : rules[x.rule]? = some r → r.next? x.dot = none →
    g.start ≠ some r.production.head → s ∈ g.terminals ++ [g.endMark] →
      x.ahead.contains s.id = true →
    AsksAction g rules q x s (.reduce x.rule)

/-- What an item of a state asks of its destinations. -/
inductive AsksGoto (rules : Array (Rule ρ)) (q : State (List Item)) (x : Item) : Symbol → Nat → Prop
  | goto {r : Rule ρ} {s j} : rules[x.rule]? = some r → r.next? x.dot = some s →
      s.isTerminal = false →
    destination q s.name = .ok j → AsksGoto rules q x s j

section Asks

variable {r : Rule ρ} {s s' : Symbol} {v : Action} {j : Nat}

theorem asksAction_next (hr : rules[x.rule]? = some r) (hs : r.next? x.dot = some s) :
    AsksAction g rules q x s' v ↔
      s' = s ∧ s.isTerminal = true ∧ ∃ j, destination q s.name = .ok j ∧ v = .shift j := by
  constructor
  · intro h
    cases h with
    | shift hr' hs' hterm hj =>
      cases hr.symm.trans hr'
      cases hs.symm.trans hs'
      exact ⟨rfl, hterm, _, hj, rfl⟩
    | accept hr' hs' | reduce hr' hs' =>
      cases hr.symm.trans hr'
      rw [hs] at hs'; cases hs'
  · rintro ⟨rfl, hterm, j, hj, rfl⟩
    exact .shift hr hs hterm hj

theorem asksAction_end (hr : rules[x.rule]? = some r) (hs : r.next? x.dot = none) :
    AsksAction g rules q x s v ↔
      g.start = some r.production.head ∧ s = g.endMark ∧ v = .accept ∨
        g.start ≠ some r.production.head ∧
          (s ∈ g.terminals ++ [g.endMark] ∧ x.ahead.contains s.id = true) ∧
          v = .reduce x.rule := by
  constructor
  · intro h
    cases h with
    | shift hr' hs' =>
      cases hr.symm.trans hr'
      rw [hs] at hs'; cases hs'
    | accept hr' hs' hstart =>
      cases hr.symm.trans hr'
      exact .inl ⟨hstart, rfl, rfl⟩
    | reduce hr' hs' hstart hmem hahead =>
      cases hr.symm.trans hr'
      exact .inr ⟨hstart, ⟨hmem, hahead⟩, rfl⟩
  · rintro (⟨hstart, rfl, rfl⟩ | ⟨hstart, ⟨hmem, hahead⟩, rfl⟩)
    · exact .accept hr hs hstart
    · exact .reduce hr hs hstart hmem hahead

theorem asksGoto_iff (hr : rules[x.rule]? = some r) :
    AsksGoto rules q x s j ↔
      r.next? x.dot = some s ∧ s.isTerminal = false ∧ destination q s.name = .ok j := by
  constructor
  · intro h
    cases h with
    | goto hr' hs hterm hj =>
      cases hr.symm.trans hr'
      exact ⟨hs, hterm, hj⟩
  · rintro ⟨hs, hterm, hj⟩
    exact .goto hr hs hterm hj

end Asks

/-- The rows hold what the given items ask for. -/
structure Rows.For (rows : Rows) (g : Grammar ρ) (rules : Array (Rule ρ)) (q : State (List Item))
    (items : List Item) : Prop extends rows.WF where
  action : ∀ {s v}, rows.action.Holds s v ↔ ∃ x ∈ items, AsksAction g rules q x s v
  goto : ∀ {s j}, rows.goto.Holds s j ↔ ∃ x ∈ items, AsksGoto rules q x s j

/-- The items of a state can be registered: no rule has an obstacle, and the state moves over all
symbols that its items expect. -/
structure Registrable (rules : Array (Rule ρ)) (q : State (List Item)) : Prop where
  rule : ∀ {x}, x ∈ q.label → ∃ r : Rule ρ, rules[x.rule]? = some r ∧ r.obstacle = none
  destination : ∀ {x} {r : Rule ρ} {s}, x ∈ q.label → rules[x.rule]? = some r →
    r.next? x.dot = some s →
    ∃ j, destination q s.name = .ok j

theorem Rows.For.add {rows rows' : Rows} (h : rows.For g rules q items)
    (hwf : rows'.WF)
    (haction : ∀ {s v}, rows'.action.Holds s v ↔ rows.action.Holds s v ∨ AsksAction g rules q x s v)
    (hgoto : ∀ {s j}, rows'.goto.Holds s j ↔ rows.goto.Holds s j ∨ AsksGoto rules q x s j) :
    rows'.For g rules q (items ++ [x]) := by
  refine ⟨hwf, fun {s v} => ?_, fun {s j} => ?_⟩
  · rw [haction, h.action]
    simp only [List.mem_append, List.mem_singleton, or_and_right, exists_or, exists_eq_left]
  · rw [hgoto, h.goto]
    simp only [List.mem_append, List.mem_singleton, or_and_right, exists_or, exists_eq_left]

theorem Rows.For.registerItem (hq : Registrable rules q) {rows : Rows} {items : List Item}
    (h : rows.For g rules q items) (hx : x ∈ q.label) :
    ∃ rows', LR1.registerItem g rules q rows x = .ok rows' ∧
    rows'.For g rules q (items ++ [x]) := by
  obtain ⟨r, hr, hobstacle⟩ := hq.rule hx
  simp only [LR1.registerItem, hr]
  cases hs : r.next? x.dot with
  | some s =>
    obtain ⟨j, hj⟩ := hq.destination hx hr hs
    simp only [hj, bind, Except.bind]
    cases hterm : s.isTerminal with
    | true =>
      refine ⟨_, rfl, h.add h.toWF.act (fun {s' v} => ?_) fun {s' j'} => ?_⟩
      · rw [Rows.act, Row.holds_register, asksAction_next hr hs]
        simp [hj, hterm]
      · rw [asksGoto_iff hr, hs]
        refine (or_iff_left ?_).symm
        rintro ⟨he, hterm', -⟩
        rw [← Option.some.inj he, hterm] at hterm'
        cases hterm'
    | false =>
      refine ⟨_, rfl, h.add h.toWF.move (fun {s' v} => ?_) fun {s' j'} => ?_⟩
      · rw [asksAction_next hr hs]
        simp [Rows.move, hterm]
      · rw [Rows.move, Row.holds_register, asksGoto_iff hr, hs]
        refine or_congr_right ⟨?_, ?_⟩
        · rintro ⟨rfl, rfl⟩
          exact ⟨rfl, hterm, hj⟩
        · rintro ⟨he, -, hj'⟩
          obtain rfl := Option.some.inj he
          exact ⟨rfl, Except.ok.inj (hj'.symm.trans hj)⟩
  | none =>
    have hgoto : ∀ {s j}, ¬ AsksGoto rules q x s j := fun h => by
      rw [asksGoto_iff hr, hs] at h
      cases h.1
    simp only [hobstacle]
    by_cases hstart : g.start = some r.production.head
    · rw [if_pos (beq_iff_eq.mpr hstart)]
      refine ⟨_, rfl, h.add h.toWF.act (fun {s' v} => ?_) fun {s' j'} => ?_⟩
      · rw [Rows.act, Row.holds_register, asksAction_end hr hs]
        simp [hstart]
      · exact (or_iff_left hgoto).symm
    · rw [if_neg (by simpa using hstart)]
      refine ⟨_, rfl, h.add h.toWF.foldl_act (fun {s' v} => ?_) fun {s' j'} => ?_⟩
      · rw [Rows.holds_foldl_act, asksAction_end hr hs, List.mem_filter]
        simp [hstart]
      · rw [Rows.goto_foldl_act]
        exact (or_iff_left hgoto).symm

theorem rowsOf_ok (hq : Registrable rules q) :
    ∃ rows, rowsOf g rules q = .ok rows ∧ rows.For g rules q q.label := by
  suffices ∀ (rest items : List Item) {rows : Rows}, items ++ rest = q.label →
      rows.For g rules q items →
      ∃ rows', rest.foldlM (registerItem g rules q) rows = .ok rows' ∧
        rows'.For g rules q q.label by
    exact this q.label [] rfl ⟨.empty, by simp [Row.Holds], by simp [Row.Holds]⟩
  intro rest
  induction rest with
  | nil =>
    intro items rows hitems h
    rw [List.append_nil] at hitems
    exact ⟨rows, rfl, hitems ▸ h⟩
  | cons x rest ih =>
    intro items rows hitems h
    obtain ⟨rows1, hreg, h1⟩ := h.registerItem hq (x := x) (by rw [← hitems]; simp)
    obtain ⟨rows2, hfold, h2⟩ := ih _ (by rw [List.append_assoc]; exact hitems) h1
    exact ⟨rows2, by rw [List.foldlM_cons, hreg]; exact hfold, h2⟩

theorem mapM_ok (f : α → Except ε β) (xs : Array α)
    (h : ∀ x ∈ xs, ∃ y, f x = .ok y) :
    ∃ ys, xs.mapM f = .ok ys ∧ ∀ i : Nat, ys[i]? = xs[i]?.bind fun x => (f x).toOption := by
  have hlist : ∀ l : List α, (∀ x ∈ l, ∃ y, f x = .ok y) →
      ∃ ys, l.mapM f = .ok ys ∧ ∀ i : Nat, ys[i]? = l[i]?.bind fun x => (f x).toOption := by
    intro l
    induction l with
    | nil => exact fun _ => ⟨[], rfl, fun _ => rfl⟩
    | cons x l ih =>
      intro hl
      obtain ⟨y, hy⟩ := hl x (.head _)
      obtain ⟨ys, hys, hget⟩ := ih fun x' hx => hl x' (.tail x hx)
      refine ⟨y :: ys, by rw [List.mapM_cons, hy, hys]; rfl, fun i => ?_⟩
      cases i with
      | zero => simp [hy, Except.toOption]
      | succ i => simpa using hget i
  obtain ⟨ys, hys, hget⟩ := hlist xs.toList fun x hx => h x (Array.mem_toList_iff.mp hx)
  refine ⟨ys.toArray, by rw [Array.mapM_eq_mapM_toList, hys]; rfl, fun i => ?_⟩
  rw [List.getElem?_toArray, hget, Array.getElem?_toList]

end AutoCool.LR1
