import AutoCool.Proofs.LR1.Evaluate
import AutoCool.Proofs.LR1.SyntaxTree

/-!
# The tree that a parser builds

A run of a parser builds syntax trees: a shift adds a leaf, and a reduction makes the trees of its
right side the children of a new node. At every moment there is one tree for each state on the stack
but the first one (`Parser.Grows`), and the record of the run is that of the trees. When the input
is accepted there is one tree left, and evaluating the record gives its value
(`Parser.evaluate_of_parse`).

Nothing here needs symbols with different names. Moves are filed under names, so where two symbols
share a name a state may be entered that was meant for the other one: what is below a node then
agrees with the right side of its production in names.
-/

namespace AutoCool.LR1.Parser

variable {ρ : Type} {p : Parser ρ} {start : Symbol} {γ : List Symbol} {k : Nat} {st : List Nat}
  {q : State (List Item)}

/-! ### The states on the stack -/

/-- A stack of states, each entered from the one below it over a symbol that some item there
expects, and these symbols, the last one first. -/
inductive Trail (p : Parser ρ) : List Nat → List Symbol → Prop
  | start : Trail p [0] []
  | move {i st γ q s j} : Trail p (i :: st) γ → p.automaton.states[i]? = some q →
      kernel p.rules q.label s ≠ [] →
    p.move? i s = some j → Trail p (j :: i :: st) (s :: γ)

theorem Trail.ne_nil (h : p.Trail st γ) : st ≠ [] := by
  cases h <;> simp

theorem Trail.drop (h : p.Trail st γ) (hn : n ≤ γ.length) : p.Trail (st.drop n) (γ.drop n) := by
  induction n generalizing st γ with
  | zero => exact h
  | succ n ih =>
    cases h with
    | start => cases hn
    | move h _ _ _ => exact ih h (Nat.le_of_succ_le_succ hn)

/-- What the items of a state on the stack say about the symbols on the way to it. -/
structure Remembers (p : Parser ρ) (start : Symbol) (γ : List Symbol) (q : State (List Item)) :
    Prop where
  names : ∀ x ∈ q.label, ∀ r, p.rules[x.rule]? = some r →
    x.dot ≤ γ.length ∧ (γ.take x.dot).map (·.name) = ((r.symbols.take x.dot).map (·.name)).reverse
  first : ∀ x ∈ q.label, x.rule = 0 → x.dot = 0 → γ = []
  last : ∀ x ∈ q.label, x.rule = 0 → x.dot = 1 → ∃ s, γ = [s] ∧ s.isNonterminal = true ∧
    s.name = start.name

theorem Framed.remembers_start (h : p.Framed start) (hq : p.automaton.states[0]? = some q) :
    Remembers p start [] q := by
  have hdot : ∀ x ∈ q.label, x.dot = 0 := by
    intro x hx
    obtain ⟨q₀, hq0, hlabel⟩ := h.traces.start
    rw [h.start_eq] at hq0
    cases hq0.symm.trans hq
    have hstands : Stands (closure p.rules (edgesOf p.rules) p.grammar.nextId [p.firstItem]) x.rule
        x.dot :=
      hlabel ▸ ⟨x, hx, rfl, rfl⟩
    rcases h.exact.stands_closure hstands with ⟨y, hy, -, hdot⟩ | ⟨hdot, -⟩
    · rw [← hdot, List.mem_singleton.mp hy]
      rfl
    · exact hdot
  refine ⟨fun x hx r _ => ?_, fun _ _ _ _ => rfl, fun x hx _ hone => ?_⟩
  · rw [hdot x hx]
    exact ⟨Nat.le_refl _, rfl⟩
  · rw [hdot x hx] at hone
    cases hone

/-- A symbol that is a nonterminal comes after all terminals of its name. -/
theorem Framed.isNonterminal_of_movers (h : p.Framed start)
    (hs' : (p.setting.movers q.label s.name p.setting.symbols).head? = some s')
    (hnt : s'.isNonterminal = true) (hs : s ∈ p.setting.movers q.label s.name p.setting.symbols) :
    s.isNonterminal = true := by
  rw [Setting.movers, setting, List.filter_append] at hs hs'
  rcases List.mem_append.mp hs with hs | hs
  · -- then the first one would be a terminal
    obtain ⟨u, us, hus⟩ := List.exists_cons_of_ne_nil (List.ne_nil_of_mem hs)
    rw [hus] at hs'
    cases hs'
    have hmem : s' ∈ p.grammar.terminals := List.mem_of_mem_filter (hus ▸ List.mem_cons_self)
    simp [Symbol.isNonterminal, h.wf.terminal_kind s' hmem] at hnt
  · simp [Symbol.isNonterminal, h.wf.nonterminal_kind s (List.mem_of_mem_filter hs)]

theorem Framed.remembers_move (h : p.Framed start) (hstart : start.isNonterminal = true)
    (hq : p.automaton.states[i]? = some q) (hγ : Remembers p start γ q)
    (hk : kernel p.rules q.label s ≠ []) (hmove : p.move? i s = some j)
    (hq' : p.automaton.states[j]? = some q') : Remembers p start (s :: γ) q' := by
  have hocc : p.Occurs s := Setting.occurs_of_kernel (t := p.setting) hk
  rw [h.move?_eq hq hocc] at hmove
  obtain ⟨s', q1, hhead, hq1, hlabel⟩ := h.traces.head_move hq hmove
  obtain rfl := Option.some.inj (hq1.symm.trans hq')
  obtain ⟨-, hname, -⟩ := Setting.mem_movers.mp (List.mem_of_head? hhead)
  have hstands : ∀ x ∈ q1.label, Stands (closure p.rules (edgesOf p.rules) p.grammar.nextId
      (kernel p.rules q.label s')) x.rule x.dot := fun x hx => by
    have hx : Stands q1.label x.rule x.dot := ⟨x, hx, rfl, rfl⟩
    rwa [hlabel] at hx
  -- an item of the kernel was moved over a symbol of the same name
  have hkernel : ∀ {n d}, Stands (kernel p.rules q.label s') n d → ∃ y ∈ q.label, y.rule = n ∧
      d = y.dot + 1 ∧
      ∃ r, p.rules[n]? = some r ∧ r.next? y.dot = some s' := by
    rintro n d ⟨x, hx, rfl, rfl⟩
    obtain ⟨y, hy, rfl, r, hr, hs⟩ := Setting.mem_kernel.mp hx
    exact ⟨y, hy, rfl, rfl, r, hr, hs⟩
  refine ⟨fun x hx r hr => ?_, fun x hx hrule hdot => ?_, fun x hx hrule hdot => ?_⟩
  · rcases h.exact.stands_closure (hstands x hx) with hx | ⟨hdot, -⟩
    · obtain ⟨y, hy, hrule, hdot, r', hr', hs⟩ := hkernel hx
      obtain rfl := Option.some.inj (hr.symm.trans hr')
      obtain ⟨hle, hnames⟩ := hγ.names y hy r (hrule ▸ hr)
      obtain ⟨hlt, hget⟩ := List.getElem?_eq_some_iff.mp hs
      rw [hdot]
      refine ⟨Nat.succ_le_succ hle, ?_⟩
      rw [List.take_succ_cons, List.map_cons, hnames, List.take_succ_eq_append_getElem hlt, hget,
        List.map_append,
        List.reverse_append, List.map_singleton, hname]
      rfl
    · rw [hdot]
      exact ⟨Nat.zero_le _, rfl⟩
  · have hx := hstands x hx
    rw [hrule] at hx
    obtain ⟨y, -, -, hy, -⟩ := hkernel (h.stands_first hx)
    rw [hdot] at hy
    cases hy
  · have hx := hstands x hx
    rw [hrule] at hx
    obtain ⟨y, hy, hyrule, hydot, r, hr, hs⟩ := hkernel (h.stands_first hx)
    rw [hdot] at hydot
    have hzero : y.dot = 0 := (Nat.succ.inj hydot).symm
    obtain ⟨r0, hr0, hsym⟩ := h.numbered.first
    obtain rfl := Option.some.inj (hr0.symm.trans hr)
    obtain rfl : start = s' := by
      rw [hzero, Rule.next?, hsym] at hs
      exact Option.some.inj hs
    refine ⟨s, by rw [hγ.first y hy hyrule hzero], ?_, hname.symm⟩
    exact h.isNonterminal_of_movers hhead hstart
      (Setting.mem_movers.mpr ⟨h.mem_symbols hocc, rfl, hk⟩)

/-- The items of every state on the stack remember the symbols on the way to it. -/
theorem Framed.remembers (h : p.Framed start) (hstart : start.isNonterminal = true)
    (htrail : p.Trail (k :: st) γ) : ∃ q, p.automaton.states[k]? = some q ∧
    Remembers p start γ q := by
  generalize hst : k :: st = st' at htrail
  induction htrail generalizing k st with
  | start =>
    cases hst
    obtain ⟨q, hq, -⟩ := h.traces.start
    rw [h.start_eq] at hq
    exact ⟨q, hq, h.remembers_start hq⟩
  | @move i st' γ q s j _ hq hk hmove ih =>
    cases hst
    obtain ⟨q1, hq1, hremembers⟩ := ih rfl
    cases hq1.symm.trans hq
    have hhead := hmove
    rw [h.move?_eq hq (Setting.occurs_of_kernel (t := p.setting) hk)] at hhead
    obtain ⟨-, q', -, hq', -⟩ := h.traces.head_move hq hhead
    exact ⟨q', hq', h.remembers_move hstart hq hremembers hk hmove hq'⟩

/-! ### One tree for each state -/

section Tables

variable {s : Symbol} {i j : Nat}

theorem moves_of_next? (hq : p.automaton.states[k]? = some q) (hx : x ∈ q.label)
    (hr : p.rules[x.rule]? = some r) (hs : r.next? x.dot = some s)
    (hj : destination q s.name = .ok j) : kernel p.rules q.label s ≠ [] ∧ p.move? k s = some j :=
  ⟨List.ne_nil_of_mem (Setting.mem_kernel.mpr ⟨x, hx, rfl, r, hr, hs⟩), (destination_iff hq).mp hj⟩

theorem Tabled.moves_of_shift (h : p.Tabled start) (hq : p.automaton.states[k]? = some q)
    (ha : p.action? k s = some (.shift j)) :
    s.isTerminal = true ∧ kernel p.rules q.label s ≠ [] ∧ p.move? k s = some j := by
  obtain ⟨x, hx, hask⟩ := h.asks_of_action? hq ha
  cases hask with
  | shift hr hs hterm hj => exact ⟨hterm, moves_of_next? hq hx hr hs hj⟩

theorem Tabled.moves_of_goto (h : p.Tabled start) (hq : p.automaton.states[k]? = some q)
    (hj : p.goto? k s = some j) : kernel p.rules q.label s ≠ [] ∧ p.move? k s = some j := by
  obtain ⟨rows, hrows, hfor⟩ := h.rows hq
  rw [goto?, hrows] at hj
  obtain ⟨x, hx, hask⟩ := hfor.goto.mp (Row.holds_of_first? hj)
  cases hask with
  | goto hr hs _ hdest => exact moves_of_next? hq hx hr hs hdest

theorem Tabled.completes_of_reduce (h : p.Tabled start) (hq : p.automaton.states[k]? = some q)
    (ha : p.action? k s = some (.reduce i)) : ∃ x ∈ q.label, x.rule = i ∧
      ∃ r, p.rules[x.rule]? = some r ∧
      x.dot = r.symbols.length ∧ p.grammar.start ≠ some r.production.head := by
  obtain ⟨x, hx, hask⟩ := h.asks_of_action? hq ha
  cases hask with
  | reduce hr hend hne _ _ => exact ⟨x, hx, rfl, _, hr, h.dot_eq hq hx hr hend, hne⟩

end Tables

/-- What a run has built when it has come to a configuration: trees that follow a grammar, whose
roots are the symbols on the way to the states of the stack, whose leaves are the tokens that were
read, and whose record is that of the run. -/
structure Grows (p : Parser ρ) (g : Grammar ρ) (w : List Token) (c : Configuration)
    (ts : List (SyntaxTree ρ)) : Prop where
  trail : p.Trail c.stack (ts.map (·.symbol)).reverse
  fits : ∀ t ∈ ts, t.Fits g
  input : w = ts.flatMap (·.leaves) ++ c.rest
  output : ts.flatMap (·.productions) = p.produced c.output.reverse
  operations : ts.flatMap (·.operations) = c.operations.reverse

theorem grows_init (p : Parser ρ) (g : Grammar ρ) (w : List Token) : p.Grows g w { rest := w } [] :=
  ⟨.start, by simp, rfl, rfl, rfl⟩

variable {g : Grammar ρ} {top : Symbol} {q₀ : Production ρ} {w : List Token} {c c' : Configuration}
  {ts : List (SyntaxTree ρ)}

theorem Grows.shift (h : p.Grows g w c ts) (hst : c.stack = k :: st) (hrest : c.rest = t :: rest)
    (ht : t.type ∈ g.terminals) (hq : p.automaton.states[k]? = some q)
    (hk : kernel p.rules q.label t.type ≠ []) (hmove : p.move? k t.type = some j) :
    p.Grows g w { c with stack := j :: c.stack, rest, operations := .shift :: c.operations }
      (ts ++ [.leaf t]) where
  trail := by
    have htrail := h.trail
    rw [hst] at htrail
    simpa [hst, SyntaxTree.symbol] using Trail.move htrail hq hk hmove
  fits u hu := by
    rcases List.mem_append.mp hu with hu | hu
    · exact h.fits u hu
    · rw [List.mem_singleton.mp hu]
      exact .leaf ht
  input := by simp [h.input, hrest]
  output := by simpa using h.output
  operations := by simp [h.operations]

theorem Grows.reduce (h : p.Grows g w c ts) (hr : p.rules[i]? = some r)
    (hrewrites : g.Rewrites r.production r.symbols)
    (hst : c.stack.drop r.symbols.length = k :: st) (hle : r.symbols.length ≤ ts.length)
    (hnames : ((ts.map (·.symbol)).reverse.take r.symbols.length).map (·.name) =
      (r.symbols.map (·.name)).reverse)
    (hq : p.automaton.states[k]? = some q) (hk : kernel p.rules q.label r.production.head ≠ [])
    (hmove : p.move? k r.production.head = some j) :
    ∃ ts', p.Grows g w { c with
      stack := j :: k :: st, output := i :: c.output, operations :=
        .reduce :: c.operations } ts' := by
  -- the trees of the right side are the last ones
  obtain ⟨us, vs, rfl, hlength⟩ : ∃ us vs, ts = us ++ vs ∧ vs.length = r.symbols.length := by
    refine ⟨_, _, (List.take_append_drop (ts.length - r.symbols.length) ts).symm, ?_⟩
    rw [List.length_drop]
    omega
  have hroots : ((us ++ vs).map (·.symbol)).reverse = (vs.map (·.symbol)).reverse ++
      (us.map (·.symbol)).reverse := by
    rw [List.map_append, List.reverse_append]
  have hvs : ((vs.map (·.symbol)).reverse).length = r.symbols.length := by simpa using hlength
  rw [hroots, List.take_left' hvs, List.map_reverse, List.reverse_inj] at hnames
  have htrail := h.trail.drop (n := r.symbols.length) (by simp; omega)
  rw [hroots, List.drop_left' hvs, hst] at htrail
  refine ⟨us ++ [.node r.production vs], ?_, fun u hu => ?_, ?_, ?_, ?_⟩
  · simpa [SyntaxTree.symbol] using Trail.move htrail hq hk hmove
  · rcases List.mem_append.mp hu with hu | hu
    · exact h.fits u (List.mem_append_left _ hu)
    · rw [List.mem_singleton.mp hu]
      refine .node hrewrites ?_ fun v hv => h.fits v (List.mem_append_right _ hv)
      rwa [List.map_map] at hnames
  · simp [h.input]
  · have hout := h.output
    rw [List.reverse_cons, produced_concat hr, ← hout]
    simp
  · have hops := h.operations
    rw [List.reverse_cons, ← hops]
    simp

theorem Framed.rewrites_of_ne (h : p.Framed start) (haug : g.Augments start p.grammar top q₀)
    {i : Nat} (hr : p.rules[i]? = some r) (hne : p.grammar.start ≠ some r.production.head) :
    g.Rewrites r.production r.symbols := by
  obtain ⟨hmem, hword⟩ := h.numbered.rewrites hr
  rw [haug.productions, List.mem_append, List.mem_singleton] at hmem
  refine ⟨hmem.resolve_right fun heq => hne ?_, hword⟩
  rw [haug.start_eq, heq, haug.head]

theorem Framed.mem_terminals (h : p.Framed start) (haug : g.Augments start p.grammar top q₀)
    (hs : p.Occurs s) (hterm : s.isTerminal = true) : s ∈ g.terminals := by
  rw [← haug.terminals]
  refine (List.mem_append.mp (h.mem_symbols hs)).resolve_right fun hmem => ?_
  simp [Symbol.isTerminal, Symbol.isNonterminal, h.wf.nonterminal_kind s hmem] at hterm

theorem Grows.step (h : p.Grows g w c ts) (hp : p.Tabled start)
    (haug : g.Augments start p.grammar top q₀) (hstart : start.isNonterminal = true)
    (hs : p.step c = .next c') : ∃ ts', p.Grows g w c' ts' := by
  obtain ⟨k, st, hst⟩ := List.exists_cons_of_ne_nil h.trail.ne_nil
  obtain ⟨q, hq, hremembers⟩ := hp.remembers hstart (hst ▸ h.trail)
  obtain ⟨stack, rest, out, ops⟩ := c
  obtain rfl : stack = k :: st := hst
  cases rest with
  | nil => simp [Parser.step] at hs
  | cons t rest =>
    rcases ha : p.action? k t.type with _ | ⟨j⟩ | ⟨i⟩ | _
    · rw [step_fail ha] at hs; cases hs
    · rw [step_shift ha] at hs
      cases hs
      obtain ⟨hterm, hk, hmove⟩ := hp.moves_of_shift hq ha
      exact ⟨_, h.shift rfl rfl (hp.mem_terminals haug
        (Setting.occurs_of_kernel (t := p.setting) hk) hterm) hq hk hmove⟩
    · obtain ⟨x, hx, rfl, r, hr, hdot, hne⟩ := hp.completes_of_reduce hq ha
      simp only [Parser.step, List.head?_cons, Option.bind_some, ha, Parser.reduce, hr] at hs
      split at hs
      · cases hs
      rename_i j hgoto
      cases hs
      obtain ⟨k', hk', hj⟩ := Option.bind_eq_some_iff.mp hgoto
      obtain ⟨st', hst'⟩ := List.head?_eq_some_iff.mp hk'
      obtain ⟨hle, hnames⟩ := hremembers.names x hx r hr
      rw [hdot, List.take_length] at hnames
      rw [hdot, List.length_reverse, List.length_map] at hle
      -- the state below the right side moves over the head
      have htrail := h.trail.drop (n := r.symbols.length) (by simpa using hle)
      rw [hst'] at htrail ⊢
      obtain ⟨q', hq', -⟩ := hp.remembers hstart htrail
      obtain ⟨hk, hmove⟩ := hp.moves_of_goto hq' hj
      exact h.reduce hr (hp.rewrites_of_ne haug hr hne) hst' hle hnames hq' hk hmove
    · rw [step_accept ha] at hs; cases hs

theorem Tabled.grows_steps (hp : p.Tabled start) (haug : g.Augments start p.grammar top q₀)
    (hstart : start.isNonterminal = true) (hsteps : p.Steps { rest := w } c) :
    ∃ ts, p.Grows g w c ts := by
  induction hsteps with
  | refl => exact ⟨[], grows_init p g w⟩
  | tail _ hs ih =>
    obtain ⟨ts, h⟩ := ih
    exact h.step hp haug hstart hs

/-! ### The tree of an input -/

theorem Tabled.tree_of_parse (hp : p.Tabled start) (haug : g.Augments start p.grammar top q₀)
    (hwf : g.WF)
    (hstart : start.isNonterminal = true) (h : p.parse w = .accepted output ops) :
    ∃ (t : SyntaxTree ρ) (eof : Token) (rest : List Token), t.Fits g ∧
      t.symbol.name = start.name ∧ t.productions = output ∧ t.productions ≠ [] ∧
        t.operations = ops ∧
      w = t.leaves ++ eof :: rest ∧ eof.type = g.endMark := by
  obtain ⟨c, hsteps, hstep, rfl, rfl⟩ := steps_of_accepted h
  obtain ⟨ts, hgrows⟩ := hp.grows_steps haug hstart hsteps
  obtain ⟨-, k, st, eof, rest, hst, hrest, hact⟩ := of_step_accept hstep
  obtain ⟨q, hq, hremembers⟩ := hp.remembers hstart (hst ▸ hgrows.trail)
  obtain ⟨x, hx, hask⟩ := hp.asks_of_action? hq hact
  generalize heof : eof.type = s at hask
  cases hask with
  | @accept r hr hend hhead =>
    have hzero := (hp.head_ne_start hr).mp hhead
    have hdot := hp.dot_eq hq hx hr hend
    obtain ⟨r0, hr0, hsym⟩ := hp.numbered.first
    rw [hzero] at hr
    cases hr0.symm.trans hr
    rw [hsym] at hdot
    obtain ⟨s, hγ, hnt, hname⟩ := hremembers.last x hx hzero hdot
    obtain ⟨t, rfl, hsymbol⟩ : ∃ t, ts = [t] ∧ t.symbol = s := by
      have hroots : ts.map (·.symbol) = [s] := List.reverse_eq_iff.mp hγ
      obtain ⟨t, ts', rfl, hsymbol, hnil⟩ := List.map_eq_cons_iff.mp hroots
      exact ⟨t, by rw [List.map_eq_nil_iff.mp hnil], hsymbol⟩
    have hfits := hgrows.fits t (.head _)
    refine ⟨t, eof, rest, hfits, by rw [hsymbol,
      hname], by simpa using hgrows.output, ?_, by simpa using hgrows.operations,
      by simpa [hrest] using hgrows.input, by rw [heof, haug.endMark]⟩
    -- the root is a nonterminal, so it is no leaf
    cases hfits with
    | leaf ht =>
      rw [← hsymbol, SyntaxTree.symbol, Symbol.isNonterminal, hwf.terminal_kind _ ht] at hnt
      cases hnt
    | node => simp

theorem takeWhile_of_fits {t : SyntaxTree ρ} (hwf : g.WF) (ht : t.Fits g)
    (heof : eof.type = g.endMark) : (t.leaves ++ eof :: rest).takeWhile (·.type ≠ g.endMark) =
      t.leaves := by
  rw [List.takeWhile_append_of_pos, List.takeWhile_cons_of_neg, List.append_nil]
  · simp [heof]
  · intro u hu
    have hkind := hwf.terminal_kind _ (ht.type_mem u hu)
    rw [decide_eq_true_iff]
    intro heq
    rw [heq, hwf.endMark_kind] at hkind
    cases hkind

/-- Evaluating the record of an accepted input gives the value of its tree, which is found bottom
up: the tree has the tokens before the first end mark as leaves and the productions of the output as
nodes. Where names tell the symbols apart it is the syntax tree of a derivation from the start
symbol. Nothing but a rule can be the reason that there is no value. -/
theorem evaluate_of_parse (hg : g.Built) (hplain : g.Plain) (hstart : g.start = some start)
    (hrules : ∀ q ∈ g.productions, Synthesized q) : ∃ p, ofGrammar g = .ok p ∧ ∀ w output ops,
      p.parse w = .accepted output ops →
      ∃ t : SyntaxTree ρ, t.Fits g ∧ t.symbol.name = start.name ∧ t.productions = output ∧
        t.operations = ops ∧
        t.leaves = w.takeWhile (·.type ≠ g.endMark) ∧
        (((g.terminals ++ g.nonterminals).map (·.name)).Nodup →
          t.symbol = start ∧ g.Spells [start] output (t.leaves.map (·.type))) ∧
        ∀ (α : Type) (apply : ρ → List α → Except EvaluationError α) (leaf : Token → α),
          evaluate apply leaf output ops w = some <$> t.value apply leaf ∧
            ∀ e, evaluate apply leaf output ops w = .error e → ∃ rule vs,
              apply rule vs = .error e := by
  have hmem := hg.wf.start_mem start hstart
  have hnt : start.isNonterminal = true := by
    simp [Symbol.isNonterminal, hg.wf.nonterminal_kind start hmem]
  obtain ⟨p, top, q, hp, haug, htabled⟩ := ofGrammar_tabled hg.wf hplain hstart
  refine ⟨p, hp, fun w output ops h => ?_⟩
  obtain ⟨t, eof, rest, hfits, hname, rfl, hne, rfl, rfl, heof⟩ :=
    htabled.tree_of_parse haug hg.wf hnt h
  refine ⟨t, hfits, hname, rfl, rfl, (takeWhile_of_fits hg.wf hfits heof).symm, fun hnames => ?_,
    fun α apply leaf => ?_⟩
  · have hsymbol : t.symbol = start :=
      List.inj_on_of_nodup_map hnames (hfits.symbol_mem hg.wf) (List.mem_append_right _ hmem) hname
    exact ⟨hsymbol, hsymbol ▸ hfits.spells hg.wf hplain hnames⟩
  · have heval : evaluate apply leaf t.productions t.operations (t.leaves ++ eof :: rest) =
        some <$> t.value apply leaf :=
      hfits.evaluate_eq hne (heof ▸ hg.wf.endMark_kind) rest
    refine ⟨heval, fun e he => ?_⟩
    rw [heval] at he
    cases hvalue : t.value apply leaf with
    | error e' =>
      rw [hvalue] at he
      cases he
      exact SyntaxTree.apply_of_value_error
        (fun q hq => hrules q (hfits.production_mem q hq)) hvalue
    | ok v => rw [hvalue] at he; cases he

end AutoCool.LR1.Parser

/-! ### The depth of nested pairs -/

namespace AutoCool.LR1.Sample

open AutoCool.Sample

/-- The grammar `S → ε | a S b` with a rule for each production. -/
def depth : Grammar Bool :=
  let g := ((({} : Grammar Bool).pushStart "S").2.terminalsOf "a b").2
  ((g.extend S (.tuple [.epsilon, .rule false])).1.extend S
    (.tuple [.sentence [.symbol a, .symbol S, .symbol b], .rule true])).1

/-- The empty word has depth `0`, and a pair is one deeper than what is inside it. -/
def deepen : Bool → List Nat → Except EvaluationError Nat
  | false, [] => .ok 0
  | true, [_, d, _] => .ok (d + 1)
  | _, _ => .error .wrongShape

theorem depth_built : depth.Built := .extend (.extend (.terminals .start) (by decide) rfl)
    (by decide) rfl

theorem depth_synthesized : ∀ q ∈ depth.productions, Synthesized q := by
  have hdepth : depth.productions = [
      { head := S, body := .epsilon, slots := some [some (.rule false)] },
      { head := S, body := .sentence [a, S, b],
        slots := some [some (.rule true), none, none, none] }] := rfl
  rw [hdepth, List.forall_mem_cons, List.forall_mem_singleton]
  exact ⟨⟨false, [], rfl, by simp⟩, true, [none, none, none], rfl, by simp⟩

theorem evaluate_of_parse_depth :
    ∃ p output ops, Parser.ofGrammar depth = .ok p ∧
    p.parse (tokens [a, a, b, b]) = .accepted output ops ∧ ∃ t : SyntaxTree Bool, t.Fits depth ∧
    t.symbol = S ∧ t.productions = output ∧ t.operations = ops ∧ t.leaves = [a, a, b, b].map token ∧
    evaluate deepen (fun _ => 0) output ops (tokens [a, a, b, b]) = .ok (some 2) ∧
    t.value deepen (fun _ => 0) = .ok 2 := by
  obtain ⟨p, hp, h⟩ := Parser.evaluate_of_parse depth_built (by decide) (rfl : depth.start = some S)
      depth_synthesized
  have hrun : ∀ p ∈ (Parser.ofGrammar depth).toOption,
      p.runWithin 9 { rest := tokens [a, a, b, b] } = some (.accept
        { stack := [7, 0], rest := tokens [], output := [2, 2, 1],
          operations := [.reduce, .shift, .reduce, .shift, .reduce, .shift, .shift] }) ∧
      (evaluate deepen (fun _ => 0) (p.produced [1, 2, 2]) [.shift, .shift, .reduce, .shift,
        .reduce, .shift, .reduce]
        (tokens [a, a, b, b])).toOption = some (some 2) := by
    simp only [Parser.ofGrammar, renumber, Automaton.visit, Graph.preorder_eq_walk]
    decide +kernel
  obtain ⟨hrun, heval⟩ := hrun p (Parser.mem_toOption hp)
  have hparse := Parser.parse_of_accept (Parser.run_of_runWithin hrun)
  obtain ⟨t, hfits, -, hproductions, hoperations, hleaves, hexact, hvalue⟩ := h _ _ _ hparse
  obtain ⟨hvalue, -⟩ := hvalue Nat deepen fun _ => 0
  have heval : evaluate deepen (fun _ => 0) (p.produced [1, 2, 2])
      [.shift, .shift, .reduce, .shift, .reduce, .shift, .reduce] (tokens [a, a, b, b]) = .ok
        (some 2) := by
    generalize evaluate deepen _ _ _ _ = r at heval
    cases r with
    | error e => cases heval
    | ok v => exact congrArg Except.ok (Option.some.inj heval)
  refine ⟨p, _, _, hp, hparse, t, hfits, (hexact (by decide)).1, hproductions, hoperations,
    hleaves.trans (by decide), heval, ?_⟩
  have hsome := hvalue.symm.trans heval
  cases hv : t.value deepen fun _ => 0 with
  | error e => rw [hv] at hsome; cases hsome
  | ok v =>
    rw [hv] at hsome
    exact congrArg Except.ok (Option.some.inj (Except.ok.inj hsome))

end AutoCool.LR1.Sample
