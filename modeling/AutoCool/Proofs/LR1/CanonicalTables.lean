import Mathlib.Data.Set.Card
import Mathlib.Order.Interval.Finset.Nat
import AutoCool.Proofs.LR1.CanonicalItems
import AutoCool.Proofs.LR1.Evaluate

/-!
# The canonical automaton and its tables

A parser realizes a collection of item sets when its states are the sets of the collection that have
an item, each of them once, when it moves from set to set, and when the cells of its tables hold
what the sets prescribe (`Parser.Realizes`).

The parser of a grammar realizes the collection of the items with a terminal ahead or without. In a
grammar without dead ends it realizes the collection of the LR(1) items of the textbook
(`Parser.ofGrammar_realizes`). With a dead end it can have states that the textbook has not, whose
items have nothing ahead: `Sample.unfollowed`.
-/

namespace AutoCool

namespace LR1

namespace Parser

variable {ρ α : Type}

/-- The items of a state, with a terminal ahead or without. -/
def marks (p : Parser ρ) (i : Nat) : Set (Dotted ρ (Option Symbol)) :=
  p.denote (((p.automaton.states[i]?).map (·.label)).getD [])

/-- The items of a state, with the terminals that are ahead of them one by one. -/
def items (p : Parser ρ) (i : Nat) : Set (Dotted ρ Symbol) := Dotted.seen (p.marks i)

/-- What the textbook prescribes for the actions of a state, given the item sets of the states. -/
inductive Prescribed (p : Parser ρ) (look : List Symbol → α → α → Prop) (mark : Symbol → α)
    (sets : Nat → Set (Dotted ρ α)) (i : Nat) : Symbol → Action → Prop
  | shift {x : Dotted ρ α} {s j} : x ∈ sets i → x.Expects p.grammar s → s.isTerminal = true →
    j < p.automaton.states.size → sets j = Dotted.goto p.grammar look (sets i) s →
      Prescribed p look mark sets i s (.shift j)
  | reduce {q w k s} : ⟨q, w.length, mark s⟩ ∈ sets i → p.grammar.Rewrites q w →
      p.grammar.start ≠ some q.head →
    (p.rules[k]?).map (·.production) = some q → Prescribed p look mark sets i s (.reduce k)
  | accept {q} : ⟨q, 1, mark p.grammar.endMark⟩ ∈ sets i → p.grammar.start = some q.head →
    Prescribed p look mark sets i p.grammar.endMark .accept

/-- The states are the item sets of the collection that have an item, each of them once. A state has
one destination under a name, the next item set over the symbol of that name, and the cells of its
rows hold what is prescribed. -/
structure Realizes (p : Parser ρ) (look : List Symbol → α → α → Prop) (mark : Symbol → α)
    (I₀ : Set (Dotted ρ α)) (sets : Nat → Set (Dotted ρ α)) : Prop where
  start : sets p.automaton.start = Dotted.closureOf p.grammar look I₀
  bijOn : Set.BijOn sets (Set.Iio p.automaton.states.size)
    {I | Dotted.Collected p.grammar look I₀ I ∧ I.Nonempty}
  moves : ∀ {i q}, p.automaton.states[i]? = some q → ∀ {name js}, q.moves.lookup name = some js ↔
    ∃ s j, s.name = name ∧ j < p.automaton.states.size ∧ sets j = Dotted.goto p.grammar look
      (sets i) s ∧ js = [j]
  action : ∀ {i rows}, p.rows[i]? = some rows → ∀ {s v}, rows.action.Holds s v ↔
    p.Prescribed look mark sets i s v
  goto : ∀ {i rows}, p.rows[i]? = some rows → ∀ {s j}, rows.goto.Holds s j ↔
    s.isNonterminal = true ∧ j < p.automaton.states.size ∧ sets j = Dotted.goto p.grammar look
      (sets i) s

/-! ### Reading the labels of the states -/

/-- The item sets are what the labels of the states tell: along the moves they are those of the
textbook, and they have the places and the lookaheads of the labels. -/
structure Reading (p : Parser ρ) (look : List Symbol → α → α → Prop) (mark : Symbol → α)
    (I₀ : Set (Dotted ρ α)) (sets : Nat → Set (Dotted ρ α)) : Prop where
  start : sets 0 = Dotted.closureOf p.grammar look I₀
  move : ∀ {i j : Nat} {q q' s}, p.automaton.states[i]? = some q →
    p.automaton.states[j]? = some q' →
    q'.label = closure p.rules (edgesOf p.rules) p.grammar.nextId (kernel p.rules q.label s) →
    sets j = Dotted.goto p.grammar look (sets i) s
  rule : ∀ {i x}, x ∈ sets i → ∃ (k : Nat) (r : Rule ρ), p.rules[k]? = some r ∧
    r.production = x.production
  stands : ∀ {i k d : Nat} {q} {r : Rule ρ}, p.automaton.states[i]? = some q →
    p.rules[k]? = some r →
    (Stands q.label k d ↔ ∃ a, ⟨r.production, d, a⟩ ∈ sets i)
  has : ∀ {i k d : Nat} {q} {r : Rule ρ} {s}, p.automaton.states[i]? = some q →
    p.rules[k]? = some r →
    (⟨r.production, d, mark s⟩ ∈ sets i ↔ s ∈ p.aheads ∧ Has q.label k d s.id)

namespace Reading

variable {p : Parser ρ} {start s : Symbol} {look : List Symbol → α → α → Prop} {mark : Symbol → α}
  {I₀ : Set (Dotted ρ α)} {sets : Nat → Set (Dotted ρ α)} {i j k d : Nat} {q q' : State (List Item)}
    {r : Rule ρ}
  (hr : p.Reading look mark I₀ sets) (h : p.Faithful start) (hq : p.automaton.states[i]? = some q)

include hr h hq

theorem expects_iff : (∃ x ∈ sets i, x.Expects p.grammar s) ↔ kernel p.rules q.label s ≠ [] := by
  constructor
  · rintro ⟨⟨y, d, a⟩, hx, hs⟩
    obtain ⟨k, r, hrule, hprod⟩ := hr.rule hx
    simp only at hprod
    subst hprod
    obtain ⟨x, hxl, rfl, rfl⟩ := (hr.stands hq hrule).mpr ⟨a, hx⟩
    exact List.ne_nil_of_mem (Setting.mem_kernel.mpr
      ⟨x, hxl, rfl, r, hrule, (h.ruled.expects_iff hrule).mp hs⟩)
  · intro hk
    obtain ⟨x, hx⟩ := List.exists_mem_of_ne_nil _ hk
    obtain ⟨y, hy, -, r, hrule, hs⟩ := Setting.mem_kernel.mp hx
    obtain ⟨a, ha⟩ := (hr.stands hq hrule).mp ⟨y, hy, rfl, rfl⟩
    exact ⟨_, ha, (h.ruled.expects_iff hrule).mpr hs⟩

theorem nonempty : (sets i).Nonempty := by
  obtain ⟨γ, hlabels⟩ := h.exists_labels hq
  obtain ⟨k, d, hs⟩ := hlabels.inhabited
  obtain ⟨r, hrule, -⟩ := (h.traces.itemSet hq).place hs
  obtain ⟨a, ha⟩ := (hr.stands hq hrule).mp hs
  exact ⟨_, ha⟩

theorem stands_of_eq (hq' : p.automaton.states[j]? = some q') (heq : sets i = sets j)
    (hs : Stands q.label k d) : Stands q'.label k d := by
  obtain ⟨r, hrule, -⟩ := (h.traces.itemSet hq).place hs
  obtain ⟨a, ha⟩ := (hr.stands hq hrule).mp hs
  exact (hr.stands hq' hrule).mpr ⟨a, heq ▸ ha⟩

theorem has_of_eq (hq' : p.automaton.states[j]? = some q') (heq : sets i = sets j)
    (hn : Has q.label k d n) : Has q'.label k d n := by
  obtain ⟨r, hrule, -⟩ := (h.traces.itemSet hq).place hn.stands
  obtain ⟨a, ha, rfl⟩ := h.sighted_label hq hn
  have hmem : ⟨r.production, d, mark a⟩ ∈ sets i := (hr.has hq hrule).mpr ⟨ha, hn⟩
  rw [heq] at hmem
  exact ((hr.has hq' hrule).mp hmem).2

theorem injective (hq' : p.automaton.states[j]? = some q') (heq : sets i = sets j) : i = j := by
  apply h.label_inj hq hq'
  apply (h.traces.itemSet hq).ext (h.traces.itemSet hq')
  · exact fun _ _ => ⟨hr.stands_of_eq h hq hq' heq, hr.stands_of_eq h hq' hq heq.symm⟩
  · exact fun _ _ _ => ⟨hr.has_of_eq h hq hq' heq, hr.has_of_eq h hq' hq heq.symm⟩

theorem goto_iff :
    j < p.automaton.states.size ∧ sets j = Dotted.goto p.grammar look (sets i) s ↔
      kernel p.rules q.label s ≠ [] ∧ q.moves.lookup s.name = some [j] := by
  constructor
  · rintro ⟨hj, heq⟩
    have hq' := Array.getElem?_eq_getElem hj
    have hgoto := hr.nonempty h hq'
    rw [heq, Dotted.goto_nonempty] at hgoto
    have hk := (hr.expects_iff h hq).mp hgoto
    obtain ⟨j', q', hlookup, hq'', hlabel⟩ :=
      h.traces.move h.named hq (Setting.occurs_of_kernel hk) hk
    obtain rfl := hr.injective h hq'' hq' ((hr.move hq hq'' hlabel).trans heq.symm)
    exact ⟨hk, hlookup⟩
  · rintro ⟨hk, hlookup⟩
    obtain ⟨j', q', hlookup', hq', hlabel⟩ :=
      h.traces.move h.named hq (Setting.occurs_of_kernel hk) hk
    cases hlookup.symm.trans hlookup'
    exact ⟨(Array.getElem?_eq_some_iff.mp hq').1, hr.move hq hq' hlabel⟩

theorem destination_iff (hs : p.Occurs s) :
    destination q s.name = .ok j ↔
      j < p.automaton.states.size ∧ sets j = Dotted.goto p.grammar look (sets i) s := by
  rw [Parser.destination_iff hq, h.move?_iff h.named hq hs, hr.goto_iff h hq]

/-! ### States -/

theorem collected : Dotted.Collected p.grammar look I₀ (sets i) := by
  have hreached := h.traces.reached hq
  generalize hitems : q.label = items at hreached
  induction hreached generalizing i q with
  | start =>
    obtain ⟨q0, hq0, hlabel⟩ := h.traces.start
    rw [h.start_eq] at hq0
    obtain rfl := h.label_inj hq hq0 (hitems.trans hlabel.symm)
    exact hr.start ▸ .start
  | @move items s hreached hk ih =>
    obtain ⟨k, -, -, q1, -, hq1, rfl⟩ := h.path_of_reached hreached
    rw [hr.move hq1 hq hitems]
    exact .move s (ih hq1 rfl)

omit hq in
theorem state_of_collected {I : Set (Dotted ρ α)}
    (hI : Dotted.Collected p.grammar look I₀ I) (hne : I.Nonempty) :
    ∃ i q, p.automaton.states[i]? = some q ∧ sets i = I := by
  induction hI with
  | start =>
    obtain ⟨q, hq, -⟩ := h.traces.start
    rw [h.start_eq] at hq
    exact ⟨0, q, hq, hr.start⟩
  | @move I s _ ih =>
    obtain ⟨x, hx, hs⟩ := Dotted.goto_nonempty.mp hne
    obtain ⟨i, q, hq, rfl⟩ := ih ⟨x, hx⟩
    have hk := (hr.expects_iff h hq).mp ⟨x, hx, hs⟩
    obtain ⟨j, q', -, hq', hlabel⟩ := h.traces.move h.named hq (Setting.occurs_of_kernel hk) hk
    exact ⟨j, q', hq', hr.move hq hq' hlabel⟩

omit hq in
theorem bijOn : Set.BijOn sets (Set.Iio p.automaton.states.size)
      {I | Dotted.Collected p.grammar look I₀ I ∧ I.Nonempty} := by
  refine ⟨fun i hi => ?_, fun i hi j hj heq => ?_, fun I hI => ?_⟩
  · have hq := Array.getElem?_eq_getElem (Set.mem_Iio.mp hi)
    exact ⟨hr.collected h hq, hr.nonempty h hq⟩
  · have hq := Array.getElem?_eq_getElem (Set.mem_Iio.mp hi)
    have hq' := Array.getElem?_eq_getElem (Set.mem_Iio.mp hj)
    exact hr.injective h hq hq' heq
  · obtain ⟨i, q, hq, heq⟩ := hr.state_of_collected h hI.1 hI.2
    exact ⟨i, Set.mem_Iio.mpr (Array.getElem?_eq_some_iff.mp hq).1, heq⟩

theorem moves_iff : q.moves.lookup name = some js ↔ ∃ s j, s.name = name ∧
      j < p.automaton.states.size ∧ sets j = Dotted.goto p.grammar look (sets i) s ∧ js = [j] := by
  constructor
  · intro hlookup
    obtain ⟨hne, hmoves⟩ := h.traces.moves hq name
    rw [hlookup, Option.getD_some] at hmoves
    have hlen := hmoves.length_eq
    -- the entry is not empty, so there is a symbol of that name to move over
    have hpos : (p.setting.movers q.label name p.setting.symbols) ≠ [] := by
      intro hnil
      rw [hnil] at hlen
      rw [List.length_eq_zero_iff.mp hlen.symm] at hlookup
      exact hne hlookup
    obtain ⟨s, hs⟩ := List.exists_mem_of_ne_nil _ hpos
    obtain ⟨-, rfl, hk⟩ := Setting.mem_movers.mp hs
    obtain ⟨j, -, hj, -⟩ := h.traces.move h.named hq (Setting.occurs_of_kernel hk) hk
    obtain ⟨hlt, hset⟩ := (hr.goto_iff h hq).mpr ⟨hk, hj⟩
    exact ⟨s, j, rfl, hlt, hset, Option.some.inj (hlookup.symm.trans hj)⟩
  · rintro ⟨s, j, rfl, hlt, hset, rfl⟩
    exact ((hr.goto_iff h hq).mp ⟨hlt, hset⟩).2

/-! ### Tables -/

theorem prescribed_of_asks (hx : x ∈ q.label) (hask : AsksAction p.grammar p.rules q x s v) :
    p.Prescribed look mark sets i s v := by
  cases hask with
  | shift hrule hs hterm hdest =>
    obtain ⟨hlt, hset⟩ := (hr.destination_iff h hq (occurs_of_next? hrule hs)).mp hdest
    obtain ⟨a, ha⟩ := (hr.stands hq hrule).mp ⟨x, hx, rfl, rfl⟩
    exact .shift ha ((h.ruled.expects_iff hrule).mpr hs) hterm hlt hset
  | @accept r hrule hend hstart =>
    have hzero := (h.head_ne_start hrule).mp hstart
    obtain ⟨γ, hlabels⟩ := h.exists_labels hq
    obtain ⟨r0, hr0, hsym⟩ := h.numbered.first
    have hdot := h.dot_eq hq hx hrule hend
    rw [hzero] at hrule
    rw [← Option.some.inj (hr0.symm.trans hrule), hsym] at hdot
    -- the first production is never there without the end mark
    refine .accept ((hr.has hq hrule).mpr ⟨?_, hlabels.first ⟨x, hx, hzero, hdot⟩⟩) hstart
    exact List.mem_append_right _ (List.mem_singleton.mpr rfl)
  | @reduce r s hrule hend hstart hmem hahead =>
    refine .reduce ((hr.has hq hrule).mpr ⟨hmem, x, hx, rfl, ?_, hahead⟩)
      (h.numbered.rewrites hrule) hstart ?_
    · exact h.dot_eq hq hx hrule hend
    · rw [hrule]
      rfl

theorem asks_of_prescribed (hv : p.Prescribed look mark sets i s v) :
    ∃ x ∈ q.label, AsksAction p.grammar p.rules q x s v := by
  cases hv with
  | @shift x s j hx hs hterm hlt hset =>
    obtain ⟨y, d, a⟩ := x
    obtain ⟨k, r, hrule, hprod⟩ := hr.rule hx
    simp only at hprod
    subst hprod
    have hnext := (h.ruled.expects_iff hrule).mp hs
    obtain ⟨x, hxl, rfl, rfl⟩ := (hr.stands hq hrule).mpr ⟨a, hx⟩
    refine ⟨x, hxl, .shift hrule hnext hterm ?_⟩
    exact (hr.destination_iff h hq (occurs_of_next? hrule hnext)).mpr ⟨hlt, hset⟩
  | @reduce y w k s hx hw hstart hnum =>
    obtain ⟨r, hrule, rfl⟩ := Option.map_eq_some_iff.mp hnum
    obtain rfl := (h.ruled.rewrites_iff hrule).mp hw
    obtain ⟨hmem, x, hxl, rfl, hdot, hahead⟩ := (hr.has hq hrule).mp hx
    refine ⟨x, hxl, .reduce hrule ?_ hstart hmem hahead⟩
    rw [hdot]
    exact List.getElem?_eq_none (Nat.le_refl _)
  | @accept y hx hstart =>
    obtain ⟨k, r, hrule, hprod⟩ := hr.rule hx
    simp only at hprod
    subst hprod
    obtain rfl := (h.head_ne_start hrule).mp hstart
    obtain ⟨-, x, hxl, hzero, hdot, -⟩ := (hr.has hq hrule).mp hx
    obtain ⟨r0, hr0, hsym⟩ := h.numbered.first
    cases hr0.symm.trans hrule
    refine ⟨x, hxl, .accept (hzero ▸ hrule) ?_ hstart⟩
    rw [hdot, Rule.next?, hsym]
    rfl

theorem goto_iff_asks :
    (∃ x ∈ q.label, AsksGoto p.rules q x s j) ↔ s.isNonterminal = true ∧
    j < p.automaton.states.size ∧ sets j = Dotted.goto p.grammar look (sets i) s := by
  constructor
  · rintro ⟨x, hx, ⟨hrule, hs, hterm, hdest⟩⟩
    exact ⟨by simpa [Symbol.isTerminal] using hterm, (hr.destination_iff h hq
      (occurs_of_next? hrule hs)).mp hdest⟩
  · rintro ⟨hnt, hgoto⟩
    obtain ⟨hk, -⟩ := (hr.goto_iff h hq).mp hgoto
    obtain ⟨x, hx⟩ := List.exists_mem_of_ne_nil _ hk
    obtain ⟨y, hy, -, r, hrule, hs⟩ := Setting.mem_kernel.mp hx
    refine ⟨y, hy, .goto hrule hs (by simp [Symbol.isTerminal, hnt]) ?_⟩
    exact (hr.destination_iff h hq (occurs_of_next? hrule hs)).mpr hgoto

omit hq in
theorem realizes : p.Realizes look mark I₀ sets where
  start := by rw [h.start_eq, hr.start]
  bijOn := hr.bijOn h
  moves hq := hr.moves_iff h hq
  action {i rows} hrows {s v} := by
    obtain ⟨q, hq, hfor⟩ := h.for_of_rows hrows
    rw [hfor.action]
    exact ⟨fun ⟨x, hx, hask⟩ => hr.prescribed_of_asks h hq hx hask, hr.asks_of_prescribed h hq⟩
  goto {i rows} hrows {s j} := by
    obtain ⟨q, hq, hfor⟩ := h.for_of_rows hrows
    rw [hfor.goto, hr.goto_iff_asks h hq]

end Reading

namespace Faithful

variable {p : Parser ρ} {start s : Symbol} {i j k d : Nat} {q : State (List Item)} {r : Rule ρ}

theorem marks_eq (hq : p.automaton.states[i]? = some q) : p.marks i = p.denote q.label := by
  rw [marks, hq]
  rfl

theorem mem_marks (h : p.Faithful start) (hq : p.automaton.states[i]? = some q)
    (hr : p.rules[k]? = some r) : ⟨r.production, d, some s⟩ ∈ p.marks i ↔ s ∈ p.aheads ∧
    Has q.label k d s.id := by
  rw [marks_eq hq, h.mem_denote hr]
  constructor
  · exact fun hx => hx.2 s rfl
  · refine fun hx => ⟨hx.2.stands, fun a ha => ?_⟩
    obtain rfl := Option.some.inj ha
    exact hx

theorem rule_of_mem_marks {x : Dotted ρ (Option Symbol)} (hx : x ∈ p.marks i) :
    ∃ (k : Nat) (r : Rule ρ), p.rules[k]? = some r ∧ r.production = x.production := by
  obtain ⟨k, r, hr, hprod, -⟩ := hx
  exact ⟨k, r, hr, hprod⟩

theorem reading_marks (h : p.Faithful start) (hr : p.rules[0]? = some r) :
    p.Reading (fun w => Option.Rel (p.grammar.Ahead w)) some
      {⟨r.production, 0, none⟩, ⟨r.production, 0, some p.grammar.endMark⟩} p.marks where
  start := by
    obtain ⟨q, hq, hlabel⟩ := h.traces.start
    rw [h.start_eq] at hq
    rw [marks_eq hq, hlabel]
    exact h.denote_start hr
  move hq hq' hlabel := by
    rw [marks_eq hq, marks_eq hq', hlabel]
    exact h.denote_move hq _
  rule := rule_of_mem_marks
  stands hq hrule := by
    rw [marks_eq hq]
    constructor
    · exact fun hs => ⟨none, (h.mem_denote hrule).mpr ⟨hs, by simp⟩⟩
    · exact fun ⟨a, ha⟩ => ((h.mem_denote hrule).mp ha).1
  has hq hrule := h.mem_marks hq hrule

/-- Without dead ends every item of a state has a terminal ahead, so the items with one suffice. -/
theorem reading_items (h : p.Faithful start) (hlive : p.grammar.Live) (hr : p.rules[0]? = some r) :
    p.Reading p.grammar.Ahead id {⟨r.production, 0, p.grammar.endMark⟩} p.items where
  start := by
    rw [items, (h.reading_marks hr).start, Dotted.seen_closureOf]
    congr 1
    ext ⟨q, d, a⟩
    simp [Dotted.seen]
  move hq hq' hlabel := by rw [items, (h.reading_marks hr).move hq hq' hlabel,
    Dotted.seen_goto, items]
  rule hx := rule_of_mem_marks hx
  stands {i k d q r} hq hrule := by
    constructor
    · intro hs
      obtain ⟨γ, hlabels⟩ := h.exists_labels hq
      obtain ⟨n, hn⟩ := hlabels.ahead hlive hs
      obtain ⟨a, ha, rfl⟩ := h.sighted_label hq hn
      exact ⟨a, (h.mem_marks hq hrule).mpr ⟨ha, hn⟩⟩
    · rintro ⟨a, ha⟩
      exact ((h.mem_marks hq hrule).mp ha).2.stands
  has hq hrule := h.mem_marks hq hrule

end Faithful

theorem Tabled.rows_wf {p : Parser ρ} (h : p.Tabled start) {i : Nat} {rows : Rows}
    (hrows : p.rows[i]? = some rows) : rows.action.WF ∧ rows.goto.WF := by
  obtain ⟨q, hq, hfor⟩ := h.for_of_rows hrows
  exact ⟨hfor.action_wf, hfor.goto_wf⟩

theorem Tabled.size_rows {p : Parser ρ} (h : p.Tabled start) :
    p.rows.size = p.automaton.states.size := by
  apply Nat.le_antisymm
  · apply Nat.le_of_not_lt
    intro hlt
    obtain ⟨q, hq⟩ := h.state_of_rows (Array.getElem?_eq_getElem hlt)
    exact Nat.lt_irrefl _ (Array.getElem?_eq_some_iff.mp hq).1
  · apply Nat.le_of_not_lt
    intro hlt
    obtain ⟨rows, hrows, -⟩ := h.rows (Array.getElem?_eq_getElem hlt)
    exact Nat.lt_irrefl _ (Array.getElem?_eq_some_iff.mp hrows).1

theorem Tabled.isLR1_iff {p : Parser ρ} (h : p.Tabled start) : p.isLR1 = true ↔
    ∀ (i : Nat) (rows : Rows), p.rows[i]? = some rows →
      (∀ s v v', rows.action.Holds s v → rows.action.Holds s v' → v = v') ∧
        ∀ s j j', rows.goto.Holds s j → rows.goto.Holds s j' → j = j' := by
  constructor
  · intro hlr i rows hrows
    obtain ⟨hlt, rfl⟩ := Array.getElem?_eq_some_iff.mp hrows
    obtain ⟨q, -, hfor⟩ := h.for_of_rows hrows
    exact hfor.single.mp (Array.all_eq_true.mp hlr i hlt)
  · intro hcells
    refine Array.all_eq_true.mpr fun i hlt => ?_
    have hrows := Array.getElem?_eq_getElem hlt
    obtain ⟨q, -, hfor⟩ := h.for_of_rows hrows
    exact hfor.single.mpr (hcells i _ hrows)

/-- Nothing is listed twice: the rules are the productions, a state has one item for each production
and place, there is a pair of rows for every state, and a row has one cell for a symbol, which holds
a value once. -/
structure Orderly (p : Parser ρ) : Prop where
  nodup : p.grammar.productions.Nodup
  rules : (p.rules.toList.map (·.production)).Perm p.grammar.productions
  items : ∀ {i : Nat} {q}, p.automaton.states[i]? = some q → q.label.Pairwise Item.Before
  rows : p.rows.size = p.automaton.states.size
  cells : ∀ {i : Nat} {rows}, p.rows[i]? = some rows → rows.action.WF ∧ rows.goto.WF

/-- The search for the states ends by itself, whatever number above the bound is allowed. The parser
realizes the collection of the items with a terminal ahead or without, which begins with the
production of the new start symbol before the end mark, and in a grammar without dead ends the
collection of the LR(1) items. The grammar is LR(1) when no cell holds two values. -/
theorem ofGrammar_realizes {g : Grammar ρ} {start : Symbol} (hg : g.Proper start) :
    ∃ p top q, ofGrammar g = .ok p ∧ g.Augments start p.grammar top q ∧
      (∀ fuel, p.setting.bound ≤ fuel → ∃ found,
        p.setting.explore fuel (p.setting.file [p.firstItem] {}).2 = found ∧
        found.pending = [] ∧ p.automaton = renumber found.automaton) ∧
      p.Orderly ∧
      p.Realizes (fun w => Option.Rel (p.grammar.Ahead w)) some
        {⟨q, 0, none⟩, ⟨q, 0, some p.grammar.endMark⟩} p.marks ∧
      (g.Live → p.Realizes p.grammar.Ahead id {⟨q, 0, p.grammar.endMark⟩} p.items) ∧
      (p.isLR1 = true ↔ ∀ (i : Nat) (rows : Rows), p.rows[i]? = some rows →
        (∀ s v v', rows.action.Holds s v → rows.action.Holds s v' → v = v') ∧
          ∀ s j j', rows.goto.Holds s j → rows.goto.Holds s j' → j = j') := by
  obtain ⟨p, top, q, hp, haug, h, hauto, hperm, r, hr, rfl⟩ := ofGrammar_faithful hg
  obtain ⟨-, hnil, -⟩ := h.exact.settled_search (first_itemSet h.wf h.numbered)
  refine ⟨p, top, _, hp, haug, fun fuel hfuel => ?_, ?_, (h.reading_marks hr).realizes h,
    fun hlive => ?_, h.isLR1_iff⟩
  · exact ⟨_, Setting.explore_of_pending_nil hnil hfuel, hnil, hauto⟩
  · exact ⟨haug.nodup hg.built.wf hg.productions_nodup, hperm, fun hq =>
      (h.traces.itemSet hq).sorted, h.size_rows,
      h.rows_wf⟩
  · exact (h.reading_items (haug.live hlive) hr).realizes h

/-- The eight item sets of nested pairs. -/
theorem ofGrammar_realizes_nested : Sample.nested.Proper Sample.S ∧ Sample.nested.Live ∧
    ∃ p q, ofGrammar Sample.nested = .ok p ∧ p.isLR1 = true ∧
      p.Realizes p.grammar.Ahead id {⟨q, 0, p.grammar.endMark⟩} p.items ∧
      {I | Dotted.Collected p.grammar p.grammar.Ahead {⟨q, 0, p.grammar.endMark⟩} I ∧
        I.Nonempty}.ncard = 8 := by
  have hlive := Sample.nested_proper.live Sample.nested_generates
  obtain ⟨p, -, q, hp, -, -, -, -, hrealizes, -⟩ := ofGrammar_realizes Sample.nested_proper
  have hsize : ∀ p ∈ (ofGrammar Sample.nested).toOption, p.automaton.states.size = 8 := by
    simp only [ofGrammar, renumber, Automaton.visit, Graph.preorder_eq_walk]
    decide +kernel
  have hreal := hrealizes hlive
  refine ⟨Sample.nested_proper, hlive, p, q, hp, Sample.nested_isLR1 p (mem_toOption hp), hreal, ?_⟩
  rw [← hreal.bijOn.image_eq, hreal.bijOn.injOn.ncard_image, hsize p (mem_toOption hp)]
  simp [Set.ncard_eq_toFinset_card']

end Parser

end LR1

/-! ### A nonterminal that nothing can follow -/

namespace Sample

open LR1

namespace Unfollowed

def A : Symbol := { id := 2, name := "A", kind := .nonterminal }

def U : Symbol := { id := 3, name := "U", kind := .nonterminal }

def c : Symbol := { id := 4, name := "c", kind := .terminal }

end Unfollowed

open Unfollowed in
/-- The grammar `S → A U`, `A → c`. There is no production for `U`, so nothing can come after
`A`. -/
def unfollowed : Grammar Unit :=
  let g := (((({} : Grammar Unit).pushStart "S").2.nonterminalsOf "A U").2.terminalsOf "c").2
  ((g.extend S (.sentence [.symbol A, .symbol U])).1.extend A (.symbol c)).1

theorem unfollowed_proper : unfollowed.Proper S where
  built := by refine .extend (.extend (.terminals (.nonterminals .start)) ?_ ?_) ?_ ?_ <;> decide
  plain := by decide
  names_nodup := by decide
  start_eq := rfl

/-- The parser moves over `c` to a state whose only item has nothing ahead, so it is no item set of
the textbook. -/
theorem unfollowed_not_realizes : unfollowed.Proper S ∧ ∃ p, Parser.ofGrammar unfollowed = .ok p ∧
    p.automaton.states.size = 5 ∧ p.items 1 = ∅ ∧
    ∀ I₀, ¬ p.Realizes p.grammar.Ahead id I₀ p.items := by
  obtain ⟨p, -, -, hp, -, -⟩ := Parser.ofGrammar_ok unfollowed_proper
  have hstate : ∀ p ∈ (Parser.ofGrammar unfollowed).toOption, p.automaton.states.size = 5 ∧
      ∀ x ∈ ((p.automaton.states[1]?).map (·.label)).getD [], x.ahead = BitSet.empty := by
    simp only [Parser.ofGrammar, renumber, Automaton.visit, Graph.preorder_eq_walk]
    decide +kernel
  obtain ⟨hsize, hahead⟩ := hstate p (Parser.mem_toOption hp)
  have hempty : p.items 1 = ∅ := by
    apply Set.eq_empty_of_forall_notMem
    rintro x ⟨k, r, -, -, -, hx⟩
    obtain ⟨-, y, hy, -, -, hn⟩ := hx _ rfl
    rw [hahead y hy] at hn
    simp at hn
  refine ⟨unfollowed_proper, p, hp, hsize, hempty, fun I₀ hreal => ?_⟩
  obtain ⟨x, hx⟩ :=
    (hreal.bijOn.mapsTo (show 1 ∈ Set.Iio p.automaton.states.size by rw [hsize]; decide)).2
  rw [hempty] at hx
  exact hx

end Sample

end AutoCool
