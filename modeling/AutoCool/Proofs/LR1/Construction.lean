import AutoCool.Proofs.LR1.Numbering
import AutoCool.Proofs.LR1.Table

/-!
# The parser of a grammar is canonical

The parser of a grammar can be made, and the item sets of its automaton are those of the valid
items: along every path, a state has the triples that are valid after the symbols of the path
(`Parser.Framed.label`). So the tables ask for what the valid items ask for
(`Parser.Constructed.canonical`).
-/

namespace AutoCool.LR1

variable {ρ : Type}

/-! ### Valid items and closed sets -/

section Valid

variable {g : Grammar ρ} {rules : Array (Rule ρ)} {start : Symbol} {γ : List Symbol}

/-- The items that are valid after some symbols are the closure of the first item, or of those that
were moved over the last symbol. -/
theorem closes_iff_valid (hr : Numbered g start rules)
    (hsound : ∀ {i d n}, P i d n → ∃ a, Valid g rules γ i d a ∧ a.id = n)
    (hstart : γ = [] → P 0 0 g.endMark.id)
    (hadvance : ∀ {γ' s i d a} {r : Rule ρ}, γ = s :: γ' → Valid g rules γ' i d a →
      rules[i]? = some r →
      r.next? d = some s → P i (d + 1) a.id) :
    Closes g rules P i d n ↔ ∃ a, Valid g rules γ i d a ∧ a.id = n := by
  constructor
  · intro h
    induction h with
    | given h => exact hsound h
    | expand _ hi hs hj hf ih =>
      obtain ⟨a, ha, rfl⟩ := ih
      rcases hf with ⟨b, hb, rfl⟩ | ⟨hnull, rfl⟩
      · exact ⟨b, .expand ha hi hs hj hb.append_left, rfl⟩
      · refine ⟨a, .expand ha hi hs hj ?_, rfl⟩
        exact hnull.begins_append (.terminal (ha.isTerminal hr))
  · rintro ⟨a, h, rfl⟩
    induction h with
    | start => exact .given (hstart rfl)
    | advance h hi hs => exact .given (hadvance rfl h hi hs)
    | @expand γ i d a j b r r' h hi hs hj hb ih =>
      refine .expand (ih hsound hstart hadvance) hi hs hj ?_
      rw [Grammar.begins_concat_iff (h.isTerminal hr) hr.headsNonterminal] at hb
      exact hb.imp (fun hb => ⟨b, hb, rfl⟩) (And.imp_right (congrArg Symbol.id))

theorem Valid.mem_terminals (hr : Numbered g start rules) (hg : g.WF) (hplain : g.Plain)
    (h : Valid g rules γ i d a) : a ∈ g.terminals ++ [g.endMark] := by
  induction h with
  | start => simp
  | advance _ _ _ ih => exact ih
  | expand h hi hs hj hb ih =>
    rw [Grammar.begins_concat_iff (h.isTerminal hr) hr.headsNonterminal] at hb
    rcases hb with hb | ⟨-, rfl⟩
    · exact List.mem_append_left _ (hplain.mem_terminals hg.formed hb fun s hs =>
        hplain.mem_of_rewrites (hr.rewrites hi) s (List.mem_of_mem_drop hs))
    · exact ih

end Valid

theorem has_kernel :
    Has (kernel rules items s) i d n ↔ ∃ d' r, d = d' + 1 ∧ Has items i d' n ∧ rules[i]? = some r ∧
      r.next? d' = some s := by
  constructor
  · rintro ⟨x, hx, rfl, rfl, hn⟩
    obtain ⟨y, hy, rfl, r, hr, hs⟩ := Setting.mem_kernel.mp hx
    exact ⟨y.dot, r, rfl, ⟨y, hy, rfl, rfl, hn⟩, hr, hs⟩
  · rintro ⟨d', r, rfl, ⟨y, hy, rfl, rfl, hn⟩, hr, hs⟩
    exact ⟨y.advance, Setting.mem_kernel.mpr ⟨y, hy, rfl, r, hr, hs⟩, rfl, rfl, hn⟩

namespace Parser

/-- What the automaton of the parser was made from. -/
def setting (p : Parser ρ) : Setting ρ where
  rules := p.rules
  edges := edgesOf p.rules
  symbols := p.grammar.terminals ++ p.grammar.nonterminals
  size := p.grammar.nextId

/-- The item that the automaton begins with. -/
def firstItem (p : Parser ρ) : Item :=
  { rule := 0, dot := 0, ahead := BitSet.singleton p.grammar.endMark.id }

theorem destination_iff {p : Parser ρ} (hq : p.automaton.states[i]? = some q) :
    destination q s.name = .ok j ↔ p.move? i s = some j := by
  rw [destination, move?, hq, Option.bind_some]
  cases (q.get? s.name).bind (·.head?) <;> simp

theorem first_itemSet {p : Parser ρ} (hwf : p.grammar.WF)
    (hnum : Numbered p.grammar start p.rules) : p.setting.ItemSet [p.firstItem] where
  sorted := List.pairwise_singleton _ _
  place := by
    rintro i d ⟨x, hx, rfl, rfl⟩
    cases List.mem_singleton.mp hx
    obtain ⟨r, hr, -⟩ := hnum.first
    exact ⟨r, hr, Nat.zero_le _⟩
  ahead := by
    rintro i d n ⟨x, hx, rfl, rfl, hn⟩
    cases List.mem_singleton.mp hx
    simp only [firstItem, BitSet.contains_singleton, decide_eq_true_iff] at hn
    exact hn ▸ hwf.id_lt _ (.head _)

/-- How the parts of a parser fit together, the tables apart. -/
structure Framed (p : Parser ρ) (start : Symbol) : Prop where
  wf : p.grammar.WF
  plain : p.grammar.Plain
  numbered : Numbered p.grammar start p.rules
  top : ∃ r : Rule ρ, p.rules[0]? = some r ∧ p.grammar.start = some r.production.head
  exact : p.setting.Exact p.grammar
  traces : p.setting.Traces p.automaton [p.firstItem]
  start_eq : p.automaton.start = 0

/-- How the parts of a parser fit together: every state has rows, and they hold what its items ask
for. -/
structure Tabled (p : Parser ρ) (start : Symbol) : Prop extends Framed p start where
  rows : ∀ {i : Nat} {q}, p.automaton.states[i]? = some q →
    ∃ rows, p.rows[i]? = some rows ∧ rows.For p.grammar p.rules q q.label
  state_of_rows : ∀ {i : Nat} {rows}, p.rows[i]? = some rows → ∃ q, p.automaton.states[i]? = some q

/-- How the parts of a parser fit together when names tell the symbols apart. -/
structure Constructed (p : Parser ρ) (start : Symbol) : Prop extends Tabled p start where
  named : p.setting.Named

namespace Framed

variable {p : Parser ρ} {start s : Symbol} {q : State (List Item)} {γ : List Symbol}

variable (h : p.Framed start)

include h

theorem ruled : Ruled p.grammar p.rules :=
  ⟨h.wf, h.plain, h.numbered.rewrites, h.numbered.rule_of_mem, h.exact.spreads⟩

/-- The triples of a state are the valid items. The first production is never there without the end
mark, and in a grammar without dead ends no item is there without a lookahead. -/
structure Labels (p : Parser ρ) (γ : List Symbol) (q : State (List Item)) : Prop where
  has : ∀ {i d n}, Has q.label i d n ↔ ∃ a, Valid p.grammar p.rules γ i d a ∧ a.id = n
  first : ∀ {d}, Stands q.label 0 d → Has q.label 0 d p.grammar.endMark.id
  inhabited : ∃ i d, Stands q.label i d
  ahead : p.grammar.Live → ∀ {i d}, Stands q.label i d → ∃ n, Has q.label i d n

theorem stands_first (hs : Stands (closure p.rules (edgesOf p.rules) p.grammar.nextId items) 0 d) :
    Stands items 0 d := by
  rcases h.exact.stands_closure hs with hs | ⟨-, r, hr, i, r', s, hr', hmem, hid⟩
  · exact hs
  · obtain rfl := h.exact.head_inj hr' hmem hr hid
    exact absurd hmem (h.numbered.head_first hr' hr)

theorem has_of_stands (hlive : p.grammar.Live) (hset : p.setting.ItemSet items)
    (hitems : ∀ {i d}, Stands items i d → ∃ n, Has items i d n)
    (hs : Stands (closure p.rules (edgesOf p.rules) p.grammar.nextId items) i d) :
    ∃ n, Has (closure p.rules (edgesOf p.rules) p.grammar.nextId items) i d n := by
  refine h.exact.has_of_stands_closure hset.ahead (fun {i d n r e} hr he => ?_) hitems hs
  obtain ⟨s, hs, hnt⟩ := h.exact.spreads.expects hr he
  rcases h.numbered.nullable_or_begins hlive hr hs hnt with hnull | ⟨b, hb⟩
  · exact ⟨n, .inr ⟨hnull, rfl⟩⟩
  · exact ⟨b.id, .inl ⟨b, hb, rfl⟩⟩

theorem mem_symbols (hs : p.Occurs s) : s ∈ p.setting.symbols := by
  obtain ⟨i, r, hr, hmem⟩ := hs
  exact h.plain.mem_of_rewrites (h.numbered.rewrites hr) s hmem

theorem get?_eq (hs : p.Occurs s) : q.get? s.name = q.moves.lookup s.name := by
  rw [State.get?, h.wf.name_ne s (h.mem_symbols hs)]
  rfl

theorem move?_eq (hq : p.automaton.states[i]? = some q) (hs : p.Occurs s) :
    p.move? i s = (q.moves.lookup s.name).bind (·.head?) := by
  rw [move?, hq, Option.bind_some, h.get?_eq hs]

/-- A state that moves over a symbol moves to the closure of the kernel for it. -/
theorem move?_iff (hnamed : p.setting.Named) (hq : p.automaton.states[i]? = some q)
    (hs : p.Occurs s) : p.move? i s = some j ↔ kernel p.rules q.label s ≠ [] ∧
    q.moves.lookup s.name = some [j] := by
  rw [h.move?_eq hq hs]
  by_cases hk : kernel p.rules q.label s = []
  · rw [h.traces.no_move hnamed hq hs hk]
    simp [hk]
  · obtain ⟨j', -, hj', -⟩ := h.traces.move hnamed hq hs hk
    rw [hj']
    simp [hk]

theorem labels_start (hq : p.automaton.states[0]? = some q) : Labels p [] q := by
  obtain ⟨q0, hq0, hlabel⟩ := h.traces.start
  rw [h.start_eq] at hq0
  obtain rfl := Option.some.inj (hq0.symm.trans hq)
  have hfirst : ∀ {i d n}, Has [p.firstItem] i d n ↔ i = 0 ∧ d = 0 ∧ n = p.grammar.endMark.id := by
    intro i d n
    simp only [Has, List.mem_singleton, exists_eq_left, firstItem, BitSet.contains_singleton,
      decide_eq_true_iff, eq_comm (a := (0 : Nat)), eq_comm (a := p.grammar.endMark.id)]
  have hclosure : ∀ {i d n}, Has q0.label i d n ↔
      Closes p.grammar p.rules (Has [p.firstItem]) i d n := by
    intro i d n
    rw [hlabel]
    exact h.exact.has_closure (first_itemSet h.wf h.numbered).ahead
  have hzero : Has q0.label 0 0 p.grammar.endMark.id :=
    hclosure.mpr (.given (hfirst.mpr ⟨rfl, rfl, rfl⟩))
  refine ⟨fun {i d n} => hclosure.trans (closes_iff_valid h.numbered ?_ ?_ ?_), fun {d} hd => ?_,
    ⟨0, 0, hzero.stands⟩, fun hlive {i d} hd => ?_⟩
  · intro i d n hn
    obtain ⟨rfl, rfl, rfl⟩ := hfirst.mp hn
    exact ⟨_, .start, rfl⟩
  · exact fun _ => hfirst.mpr ⟨rfl, rfl, rfl⟩
  · exact fun he => (by cases he)
  · rw [hlabel] at hd
    obtain ⟨x, hx, -, rfl⟩ := h.stands_first hd
    obtain rfl := List.mem_singleton.mp hx
    exact hzero
  · rw [hlabel] at hd ⊢
    refine h.has_of_stands hlive (first_itemSet h.wf h.numbered) ?_ hd
    rintro i d ⟨x, hx, rfl, rfl⟩
    obtain rfl := List.mem_singleton.mp hx
    exact ⟨_, hfirst.mpr ⟨rfl, rfl, rfl⟩⟩

theorem labels_move (hnamed : p.setting.Named) (hq : p.automaton.states[i]? = some q)
    (hlabels : Labels p γ q) (hs : p.Occurs s) (hmove : p.move? i s = some j)
    (hq' : p.automaton.states[j]? = some q') : Labels p (s :: γ) q' := by
  obtain ⟨hk, hlookup⟩ := (h.move?_iff hnamed hq hs).mp hmove
  obtain ⟨j', q1, hj', hq1, hlabel⟩ := h.traces.move hnamed hq hs hk
  cases hlookup.symm.trans hj'
  obtain rfl := Option.some.inj (hq1.symm.trans hq')
  have hclosure : ∀ {i d n}, Has q1.label i d n ↔
      Closes p.grammar p.rules (Has (kernel p.rules q.label s)) i d n := by
    intro i d n
    rw [hlabel]
    exact h.exact.has_closure ((h.traces.itemSet hq).kernel s).ahead
  refine ⟨fun {i d n} => hclosure.trans (closes_iff_valid h.numbered ?_ ?_ ?_),
    fun {d} hd => ?_, ?_,
    fun hlive {i d} hd => ?_⟩
  · intro i d n hn
    obtain ⟨d', r, rfl, hhas, hr, hs'⟩ := has_kernel.mp hn
    obtain ⟨a, ha, rfl⟩ := hlabels.has.mp hhas
    exact ⟨a, .advance ha hr hs', rfl⟩
  · exact fun he => (by cases he)
  · intro γ' s' i d a r he hv hr hs'
    cases he
    exact has_kernel.mpr ⟨d, r, rfl, hlabels.has.mpr ⟨a, hv, rfl⟩, hr, hs'⟩
  · rw [hlabel] at hd
    obtain ⟨x, hx, hrule, rfl⟩ := h.stands_first hd
    obtain ⟨y, hy, rfl, r, hr, hs'⟩ := Setting.mem_kernel.mp hx
    refine hclosure.mpr
      (.given (has_kernel.mpr ⟨y.dot, r, rfl, hlabels.first ⟨y, hy, hrule, rfl⟩, ?_, hs'⟩))
    exact hrule ▸ hr
  · obtain ⟨x, hx⟩ := List.exists_mem_of_ne_nil _ hk
    rw [hlabel]
    exact ⟨x.rule, x.dot, Setting.stands_closure_of_stands (t := p.setting) ⟨x, hx, rfl, rfl⟩⟩
  · rw [hlabel] at hd ⊢
    refine h.has_of_stands hlive ((h.traces.itemSet hq).kernel s) ?_ hd
    rintro i d ⟨x, hx, rfl, rfl⟩
    obtain ⟨y, hy, rfl, r, hr, hs'⟩ := Setting.mem_kernel.mp hx
    obtain ⟨n, hn⟩ := hlabels.ahead hlive ⟨y, hy, rfl, rfl⟩
    exact ⟨n, has_kernel.mpr ⟨y.dot, r, rfl, hn, hr, hs'⟩⟩

theorem label (hnamed : p.setting.Named) (hpath : p.Path (i :: st) γ) :
    ∃ q, p.automaton.states[i]? = some q ∧ Labels p γ q := by
  generalize hst : i :: st = st' at hpath
  induction hpath generalizing i st with
  | start =>
    obtain ⟨q, hq, -⟩ := h.traces.start
    cases hst
    rw [h.start_eq] at hq
    exact ⟨q, hq, h.labels_start hq⟩
  | @move i' st' γ s j hpath hs hmove ih =>
    cases hst
    obtain ⟨q, hq, hlabels⟩ := ih rfl
    obtain ⟨hk, hlookup⟩ := (h.move?_iff hnamed hq hs).mp hmove
    obtain ⟨j', q', hj', hq', -⟩ := h.traces.move hnamed hq hs hk
    cases hlookup.symm.trans hj'
    exact ⟨q', hq', h.labels_move hnamed hq hlabels hs hmove hq'⟩

/-! ### The tables -/

theorem move?_exists (hq : p.automaton.states[k]? = some q) (hx : Stands q.label i d)
    (hr : p.rules[i]? = some r) (hs : r.next? d = some s) : ∃ j, p.move? k s = some j := by
  obtain ⟨x, hx, rfl, rfl⟩ := hx
  have hocc := occurs_of_next? hr hs
  have hk : kernel p.rules q.label s ≠ [] :=
    List.ne_nil_of_mem (Setting.mem_kernel.mpr ⟨x, hx, rfl, r, hr, hs⟩)
  rw [h.move?_eq hq hocc]
  exact h.traces.head_exists hq (h.mem_symbols hocc) hk

theorem registrable {k : Nat} (hq : p.automaton.states[k]? = some q) :
    Registrable p.rules q where
  rule hx := by
    obtain ⟨r, hr, -⟩ := (h.traces.itemSet hq).place ⟨_, hx, rfl, rfl⟩
    exact ⟨r, hr, h.exact.spreads.obstacle hr⟩
  destination hx hr hs := by
    obtain ⟨j, hj⟩ := h.move?_exists hq ⟨_, hx, rfl, rfl⟩ hr hs
    exact ⟨j, (destination_iff hq).mpr hj⟩

theorem dot_eq {k : Nat} (hq : p.automaton.states[k]? = some q) (hx : x ∈ q.label)
    (hr : p.rules[x.rule]? = some r) (hend : r.next? x.dot = none) : x.dot = r.symbols.length := by
  obtain ⟨r', hr', hle⟩ := (h.traces.itemSet hq).place ⟨x, hx, rfl, rfl⟩
  cases hr.symm.trans hr'
  exact Nat.le_antisymm hle (List.getElem?_eq_none_iff.mp hend)

theorem head_ne_start (hr : p.rules[i]? = some r) :
    p.grammar.start = some r.production.head ↔ i = 0 := by
  obtain ⟨r0, hr0, htop⟩ := h.top
  constructor
  · intro hstart
    exact h.numbered.first_of_head hr hr0 (Option.some.inj (hstart.symm.trans htop))
  · rintro rfl
    rwa [Option.some.inj (hr.symm.trans hr0)]

theorem valid_of_has (hlabels : Labels p γ q) (hs : s ∈ p.grammar.symbols)
    (hhas : Has q.label i d s.id) : Valid p.grammar p.rules γ i d s := by
  obtain ⟨a, ha, hid⟩ := hlabels.has.mp hhas
  have hmem := Grammar.mem_symbols_of_ahead (ha.mem_terminals h.numbered h.wf h.plain)
  rwa [← h.wf.eq_of_id hmem hs hid]

end Framed

namespace Tabled

variable {p : Parser ρ} {start s : Symbol} {q : State (List Item)}

theorem for_of_rows (h : p.Tabled start) {k : Nat} {rows : Rows} (hrows : p.rows[k]? = some rows) :
    ∃ q, p.automaton.states[k]? = some q ∧ rows.For p.grammar p.rules q q.label := by
  obtain ⟨q, hq⟩ := h.state_of_rows hrows
  obtain ⟨rows', hrows', hfor⟩ := h.rows hq
  cases hrows.symm.trans hrows'
  exact ⟨q, hq, hfor⟩

theorem asks_of_action? (h : p.Tabled start) (hq : p.automaton.states[k]? = some q)
    (ha : p.action? k s = some a) : ∃ x ∈ q.label, AsksAction p.grammar p.rules q x s a := by
  obtain ⟨rows, hrows, hfor⟩ := h.rows hq
  rw [action?, hrows] at ha
  exact hfor.action.mp (Row.holds_of_first? ha)

theorem action?_of_asks (h : p.Tabled start) (hlr : p.isLR1 = true)
    (hq : p.automaton.states[k]? = some q) (hx : x ∈ q.label)
    (ha : AsksAction p.grammar p.rules q x s a) : p.action? k s = some a := by
  obtain ⟨rows, hrows, hfor⟩ := h.rows hq
  obtain ⟨hlt, rfl⟩ := Array.getElem?_eq_some_iff.mp hrows
  have hsingle := hfor.single.mp (Array.all_eq_true.mp hlr k hlt)
  rw [action?, hrows]
  exact hfor.action_wf.first?_of_holds hsingle.1 (hfor.action.mpr ⟨x, hx, ha⟩)

theorem goto?_of_asks (h : p.Tabled start) (hq : p.automaton.states[k]? = some q) (hx : x ∈ q.label)
    (ha : AsksGoto p.rules q x s j) : p.goto? k s = some j := by
  obtain ⟨rows, hrows, hfor⟩ := h.rows hq
  obtain ⟨j', hj'⟩ := hfor.goto_wf.first?_exists (hfor.goto.mpr ⟨x, hx, ha⟩)
  obtain ⟨x', -, ha'⟩ := hfor.goto.mp (Row.holds_of_first? hj')
  cases ha with
  | goto _ _ _ hj =>
    cases ha' with
    | goto _ _ _ hdest =>
      rw [goto?, hrows, Option.bind_some, hj', Except.ok.inj (hj.symm.trans hdest)]

end Tabled

namespace Constructed

variable {p : Parser ρ} {start s : Symbol}

variable (h : p.Constructed start)

include h

theorem label (hpath : p.Path (i :: st) γ) :
    ∃ q, p.automaton.states[i]? = some q ∧ Framed.Labels p γ q := h.toFramed.label h.named hpath

/-! What the tables ask for along a path, and what valid items make them ask for. -/

variable {st : List Nat} {γ : List Symbol} {k i d : Nat} {a t : Symbol} {r : Rule ρ}

theorem shift {j : Nat} (hpath : p.Path (k :: st) γ) (ha : p.action? k t = some (.shift j)) :
    t.isTerminal = true ∧ p.Occurs t ∧ p.move? k t = some j := by
  obtain ⟨q, hq, -⟩ := h.label hpath
  obtain ⟨x, -, hask⟩ := h.asks_of_action? hq ha
  cases hask with
  | shift hr hs hterm hj => exact ⟨hterm, occurs_of_next? hr hs, (destination_iff hq).mp hj⟩

theorem reduce (hpath : p.Path (k :: st) γ) (ha : p.action? k t = some (.reduce i)) :
    i ≠ 0 ∧ ∃ r : Rule ρ, p.rules[i]? = some r ∧
    Valid p.grammar p.rules γ i r.symbols.length t := by
  obtain ⟨q, hq, hlabels⟩ := h.label hpath
  obtain ⟨x, hx, hask⟩ := h.asks_of_action? hq ha
  cases hask with
  | @reduce r _ hr hend hstart hmem hahead =>
    refine ⟨fun he => hstart ((h.head_ne_start hr).mpr he), r, hr, ?_⟩
    exact h.valid_of_has hlabels (Grammar.mem_symbols_of_ahead hmem)
      ⟨x, hx, rfl, h.dot_eq hq hx hr hend, hahead⟩

theorem accept (hpath : p.Path (k :: st) γ) (ha : p.action? k t = some .accept) :
    t = p.grammar.endMark ∧ Valid p.grammar p.rules γ 0 1 t := by
  obtain ⟨q, hq, hlabels⟩ := h.label hpath
  obtain ⟨x, hx, hask⟩ := h.asks_of_action? hq ha
  cases hask with
  | accept hr hend hstart =>
    have hzero := (h.head_ne_start hr).mp hstart
    obtain ⟨r0, hr0, hsym⟩ := h.numbered.first
    have hdot := h.dot_eq hq hx hr hend
    rw [hzero] at hr
    rw [← Option.some.inj (hr0.symm.trans hr), hsym] at hdot
    exact ⟨rfl, h.valid_of_has hlabels (.head _) (hlabels.first ⟨x, hx, hzero, hdot⟩)⟩

theorem item_of_valid (hpath : p.Path (k :: st) γ) (hv : Valid p.grammar p.rules γ i d a)
    (hr : p.rules[i]? = some r)
    (hs : r.next? d = some s) :
    ∃ q x j, p.automaton.states[k]? = some q ∧ x ∈ q.label ∧ x.rule = i ∧ x.dot = d ∧
      p.move? k s = some j ∧ destination q s.name = .ok j := by
  obtain ⟨q, hq, hlabels⟩ := h.label hpath
  obtain ⟨x, hx, rfl, rfl, -⟩ := hlabels.has.mpr ⟨a, hv, rfl⟩
  obtain ⟨j, hj⟩ := h.move?_exists hq ⟨x, hx, rfl, rfl⟩ hr hs
  exact ⟨q, x, j, hq, hx, rfl, rfl, hj, (destination_iff hq).mpr hj⟩

theorem goto_of_valid (hpath : p.Path (k :: st) γ) (hv : Valid p.grammar p.rules γ i d a)
    (hr : p.rules[i]? = some r) (hs : r.next? d = some s) (hnt : s.isNonterminal = true) :
    ∃ j, p.goto? k s = some j ∧ p.move? k s = some j := by
  obtain ⟨q, x, j, hq, hx, rfl, rfl, hj, hdest⟩ := h.item_of_valid hpath hv hr hs
  exact ⟨j, h.goto?_of_asks hq hx (.goto hr hs (by simp [Symbol.isTerminal, hnt]) hdest), hj⟩

theorem shift_of_valid (hlr : p.isLR1 = true) (hpath : p.Path (k :: st) γ)
    (hv : Valid p.grammar p.rules γ i d a) (hr : p.rules[i]? = some r) (hs : r.next? d = some s)
    (hterm : s.isTerminal = true) : ∃ j, p.action? k s = some (.shift j) ∧
    p.move? k s = some j := by
  obtain ⟨q, x, j, hq, hx, rfl, rfl, hj, hdest⟩ := h.item_of_valid hpath hv hr hs
  exact ⟨j, h.action?_of_asks hlr hq hx (.shift hr hs hterm hdest), hj⟩

theorem reduce_of_valid (hlr : p.isLR1 = true) (hpath : p.Path (k :: st) γ) (hi : i ≠ 0)
    (hr : p.rules[i]? = some r) (hv : Valid p.grammar p.rules γ i r.symbols.length a) :
    p.action? k a = some (.reduce i) := by
  obtain ⟨q, hq, hlabels⟩ := h.label hpath
  obtain ⟨x, hx, rfl, hdot, hahead⟩ := hlabels.has.mpr ⟨a, hv, rfl⟩
  refine h.action?_of_asks hlr hq hx (.reduce hr ?_
    (fun hstart => hi ((h.head_ne_start hr).mp hstart))
    (hv.mem_terminals h.numbered h.wf h.plain) hahead)
  rw [hdot]
  exact List.getElem?_eq_none (Nat.le_refl _)

theorem accept_of_valid (hlr : p.isLR1 = true) (hpath : p.Path (k :: st) γ)
    (hv : Valid p.grammar p.rules γ 0 1 a) : p.action? k a = some .accept := by
  obtain ⟨-, rfl⟩ := hv.of_first_complete h.numbered
  obtain ⟨q, hq, hlabels⟩ := h.label hpath
  obtain ⟨x, hx, hrule, hdot, -⟩ := hlabels.has.mpr ⟨_, hv, rfl⟩
  obtain ⟨r0, hr0, hsym⟩ := h.numbered.first
  rw [← hrule] at hr0
  refine h.action?_of_asks hlr hq hx (.accept hr0 ?_ ((h.head_ne_start hr0).mpr hrule))
  rw [hdot, Rule.next?, hsym]
  rfl

theorem valid_of_path (hlive : p.grammar.Live) (hpath : p.Path st γ) :
    ∃ i d a, Valid p.grammar p.rules γ i d a := by
  obtain ⟨k, st, rfl⟩ := List.exists_cons_of_ne_nil hpath.ne_nil
  obtain ⟨q, -, hlabels⟩ := h.label hpath
  obtain ⟨i, d, hs⟩ := hlabels.inhabited
  obtain ⟨n, hn⟩ := hlabels.ahead hlive hs
  obtain ⟨a, ha, -⟩ := hlabels.has.mp hn
  exact ⟨i, d, a, ha⟩

theorem canonical : p.Canonical start where
  numbered := h.numbered
  shift := h.shift
  reduce := h.reduce
  accept := h.accept
  goto_of_valid := h.goto_of_valid
  shift_of_valid hlr _ _ _ _ _ _ _ _ := h.shift_of_valid hlr
  reduce_of_valid hlr _ _ _ _ _ _ := h.reduce_of_valid hlr
  accept_of_valid hlr _ _ _ _ := h.accept_of_valid hlr
  valid_of_path hlive _ _ := h.valid_of_path hlive

end Constructed

/-! ### Making the parser -/

section Make

variable {g : Grammar ρ} {start top : Symbol} {q : Production ρ}

theorem parts_of_ofGrammar (h : ofGrammar g = .ok p) :
    rulesOf p.grammar = .ok p.rules ∧
    p.automaton = renumber (p.setting.search p.firstItem).automaton := by
  unfold ofGrammar at h
  simp only [bind, Except.bind] at h
  cases hg : g.augmented true with
  | error e => rw [hg] at h; cases h
  | ok g' =>
    simp only [hg] at h
    cases hrules : rulesOf g' with
    | error e => rw [hrules] at h; cases h
    | ok rules =>
      simp only [hrules] at h
      split at h
      · cases h
      · split at h
        · cases h
        · obtain rfl := Except.ok.inj h
          exact ⟨hrules, rfl⟩

/-- The new start symbol stands in no right side, so the names of the others suffice to tell symbols
apart. -/
theorem Framed.named {p : Parser ρ} (h : p.Framed start) (haug : g.Augments start p.grammar top q)
    (hnames : ((g.terminals ++ g.nonterminals).map (·.name)).Nodup) : p.setting.Named where
  nodup := h.wf.declared_nodup
  mem := h.mem_symbols
  inj := by
    have hold : ∀ {s}, p.Occurs s → s ∈ g.terminals ++ g.nonterminals := by
      intro s hs
      have hmem : s ∈ p.grammar.terminals ++ p.grammar.nonterminals := h.mem_symbols hs
      rw [haug.terminals, haug.nonterminals, List.mem_append, List.mem_cons] at hmem
      rw [List.mem_append]
      refine hmem.imp_right fun hmem => hmem.resolve_left ?_
      rintro rfl
      obtain ⟨i, r, hr, hmem⟩ := hs
      obtain ⟨r0, hr0, htop⟩ := h.top
      rw [haug.start_eq] at htop
      exact h.numbered.head_first hr hr0 (Option.some.inj htop ▸ hmem)
    exact fun _ _ hs hs' hname => List.inj_on_of_nodup_map hnames (hold hs) (hold hs') hname

/-- The parser of a grammar can be made, also when symbols have one name. Its grammar is the one
with the new start symbol, and its parts fit together. -/
theorem ofGrammar_tabled (hwf : g.WF) (hg : g.Plain) (hstart : g.start = some start) :
    ∃ p top q, ofGrammar g = .ok p ∧ g.Augments start p.grammar top q ∧ p.Tabled start := by
  have hmem := hwf.start_mem start hstart
  obtain ⟨g', top, q, haug, h⟩ := hwf.augmented hstart
  have hplain := h.plain hg hmem
  obtain ⟨rules, hrules, hruled⟩ := rulesOf_ok h.wf hplain
  obtain ⟨hnum, r0, hr0, htop⟩ := hruled.numbered hrules hwf hg hmem h
  let t : Setting ρ :=
    { rules, edges := edgesOf rules, symbols := g'.terminals ++ g'.nonterminals, size := g'.nextId }
  let first : Item := { rule := 0, dot := 0, ahead := BitSet.singleton g'.endMark.id }
  have hexact : t.Exact g' := hruled.exact _
  let p0 : Parser ρ :=
    { grammar := g', rules, automaton := renumber (t.search first).automaton, rows := #[] }
  have htraces : t.Traces (t.search first).automaton [first] :=
    hexact.traces_search (first_itemSet (p := p0) h.wf hnum)
  obtain ⟨q0, hq0, -⟩ := htraces.start
  have hframed : p0.Framed start :=
    ⟨h.wf, hplain, hnum, ⟨r0, hr0, by rw [htop, h.head]; exact h.start_eq⟩, hexact,
      htraces.renumber,
      start_renumber (Array.getElem?_eq_some_iff.mp hq0).1⟩
  have hfault : t.fault? (t.search first) = none :=
    List.findSome?_eq_none_iff.mpr fun k _ => hexact.closureFault?_eq k
  have hrow : ∀ {i : Nat} {q}, p0.automaton.states[i]? = some q →
      ∃ rows, rowsOf g' rules q = .ok rows ∧ rows.For g' rules q q.label :=
    fun hq => rowsOf_ok (hframed.registrable hq)
  obtain ⟨rows, hrows, hget⟩ := mapM_ok (rowsOf g' rules) p0.automaton.states fun q hq => by
    obtain ⟨i, hi⟩ := Array.mem_iff_getElem?.mp hq
    exact (hrow hi).imp fun _ h => h.1
  refine ⟨{ p0 with rows }, top, q, ?_, h, { hframed with rows := ?_, state_of_rows := ?_ }⟩
  · simp only [ofGrammar, haug, hrules, bind, Except.bind]
    rw [show Setting.fault? _ _ = none from hfault]
    change Except.bind (Array.mapM (rowsOf g' rules) p0.automaton.states) _ = _
    rw [hrows]
    rfl
  · intro i q hq
    obtain ⟨R, hR, hfor⟩ := hrow hq
    refine ⟨R, ?_, hfor⟩
    rw [hget i, show p0.automaton.states[i]? = some q from hq, Option.bind_some, hR]
    rfl
  · intro i R hR
    rw [hget i] at hR
    exact (Option.bind_eq_some_iff.mp hR).imp fun _ h => h.1

theorem ofGrammar_ok (hg : g.Proper start) :
    ∃ p top q, ofGrammar g = .ok p ∧ g.Augments start p.grammar top q ∧ p.Constructed start := by
  obtain ⟨p, top, q, hp, haug, htabled⟩ := ofGrammar_tabled hg.built.wf hg.plain hg.start_eq
  exact ⟨p, top, q, hp, haug, htabled, htabled.named haug hg.names_nodup⟩

end Make

end Parser

end AutoCool.LR1
