import AutoCool.Proofs.Grammar.Distinct
import AutoCool.Proofs.LR1.Collection
import AutoCool.Proofs.LR1.Conflicts
import AutoCool.Proofs.LR1.Kernels

/-!
# The items that a state stands for

A state has an item for each production and place, with a set of lookaheads. `Parser.denote` takes
it apart into items with a single terminal ahead, and one without for the place itself. The closure
and the kernels of item sets denote the closure and the moves of what the sets denote
(`Parser.denote_closure`, `Parser.Faithful.denote_kernel`).
-/

namespace AutoCool.LR1

variable {ρ : Type}

theorem stands_kernel_iff :
    Stands (kernel rules items s) i d ↔ ∃ d' r, d = d' + 1 ∧ Stands items i d' ∧
      rules[i]? = some r ∧
      r.next? d' = some s := by
  constructor
  · rintro ⟨x, hx, rfl, rfl⟩
    obtain ⟨y, hy, rfl, r, hr, hs⟩ := Setting.mem_kernel.mp hx
    exact ⟨y.dot, r, rfl, ⟨y, hy, rfl, rfl⟩, hr, hs⟩
  · rintro ⟨d', r, rfl, ⟨y, hy, rfl, rfl⟩, hr, hs⟩
    exact ⟨y.advance, Setting.mem_kernel.mpr ⟨y, hy, rfl, r, hr, hs⟩, rfl, rfl⟩

namespace Parser

/-- What can be ahead of an item. -/
def aheads (p : Parser ρ) : List Symbol := p.grammar.terminals ++ [p.grammar.endMark]

/-- The items that some items with sets of lookaheads stand for: one for each lookahead, and one
without. -/
def denote (p : Parser ρ) (items : List Item) : Set (Dotted ρ (Option Symbol)) :=
  {x | ∃ i r, p.rules[i]? = some r ∧ r.production = x.production ∧ Stands items i x.dot ∧
    ∀ a ∈ x.ahead, a ∈ p.aheads ∧ Has items i x.dot a.id}

/-- Every lookahead is the number of a terminal or of the end mark. -/
def Sighted (p : Parser ρ) (items : List Item) : Prop :=
  ∀ {i d n}, Has items i d n → ∃ a ∈ p.aheads, a.id = n

/-- How the parts of a parser fit together when its grammar has no production twice: then no two
states have the same items. -/
structure Faithful (p : Parser ρ) (start : Symbol) : Prop extends Constructed p start where
  rule_inj : ∀ {i j : Nat} {r r' : Rule ρ}, p.rules[i]? = some r → p.rules[j]? = some r' →
    r.production = r'.production → i = j
  label_inj : ∀ {i j : Nat} {q q'}, p.automaton.states[i]? = some q →
    p.automaton.states[j]? = some q' →
    q.label = q'.label → i = j

end Parser

namespace Ruled

variable {g : Grammar ρ} {rules : Array (Rule ρ)} {s b : Symbol} {i d : Nat} {r : Rule ρ}

theorem mem_aheads_of_begins (h : Ruled g rules) (hr : rules[i]? = some r)
    (hb : g.Begins (r.symbols.drop d) b) : b ∈ g.terminals ++ [g.endMark] :=
  List.mem_append_left _ (h.plain.mem_terminals h.wf.formed hb fun s hs =>
    h.plain.mem_of_rewrites (h.rewrites hr) s (List.mem_of_mem_drop hs))

theorem rewrites_iff (h : Ruled g rules) (hr : rules[i]? = some r) :
    g.Rewrites r.production w ↔ w = r.symbols := by
  constructor
  · exact fun hw => Option.some.inj (hw.2.symm.trans (h.rewrites hr).2)
  · exact fun hw => hw ▸ h.rewrites hr

theorem expects_iff (h : Ruled g rules) (hr : rules[i]? = some r) :
    (⟨r.production, d, a⟩ : Dotted ρ α).Expects g s ↔ r.next? d = some s := by
  constructor
  · rintro ⟨w, hw, hs⟩
    rwa [(h.rewrites_iff hr).mp hw] at hs
  · exact fun hs => ⟨r.symbols, h.rewrites hr, hs⟩

end Ruled

namespace Parser

variable {p : Parser ρ} {start s a b : Symbol} {items : List Item} {i d : Nat} {r : Rule ρ}
  {o : Option Symbol}

/-! ### Closures -/

theorem Sighted.lt (hsight : p.Sighted items) (hg : p.grammar.WF) (hn : Has items i d n) :
    n < p.grammar.nextId := by
  obtain ⟨a, ha, rfl⟩ := hsight hn
  exact hg.id_lt a (Grammar.mem_symbols_of_ahead ha)

/-- Items with a single terminal ahead or none bring in such items. -/
abbrev Brought (p : Parser ρ) (items : List Item) : Dotted ρ (Option Symbol) → Prop :=
  Dotted.Closure p.grammar (fun w => Option.Rel (p.grammar.Ahead w)) (p.denote items)

theorem brought_of_opens (h : Ruled p.grammar p.rules) (ho : Opens p.rules (Stands items) i d)
    (hr : p.rules[i]? = some r) : Brought p items ⟨r.production, d, none⟩ := by
  induction ho generalizing r with
  | given hs => exact .given ⟨_, r, hr, rfl, hs, by simp⟩
  | expand _ hr1 hs hr2 ih =>
    cases hr2.symm.trans hr
    exact .expand (ih hr1) (h.rewrites hr1) hs (h.rewrites hr2).1 .none

theorem brought_of_closes (h : Ruled p.grammar p.rules) (hsight : p.Sighted items)
    (hc : Closes p.grammar p.rules (Has items) i d n) (hr : p.rules[i]? = some r) :
    ∃ a ∈ p.aheads, a.id = n ∧ Brought p items ⟨r.production, d, some a⟩ := by
  induction hc generalizing r with
  | given hn =>
    obtain ⟨a, ha, rfl⟩ := hsight hn
    refine ⟨a, ha, rfl, .given ⟨_, r, hr, rfl, hn.stands, fun b hb => ?_⟩⟩
    obtain rfl := Option.some.inj hb
    exact ⟨ha, hn⟩
  | expand _ hr1 hs hr2 hf ih =>
    cases hr2.symm.trans hr
    obtain ⟨a, ha, rfl, hx⟩ := ih hr1
    have hbring : ∀ {b}, p.grammar.Ahead _ a b → Brought p items ⟨_, 0, some b⟩ := fun hb =>
      .expand hx (h.rewrites hr1) hs (h.rewrites hr2).1 (.some hb)
    rcases hf with ⟨b, hb, rfl⟩ | ⟨hnull, rfl⟩
    · exact ⟨b, h.mem_aheads_of_begins hr1 hb, rfl, hbring hb.append_left⟩
    · exact ⟨a, ha, rfl, hbring (hnull.begins_append (.terminal (h.wf.isTerminal_of_ahead ha)))⟩

theorem denote_closure (h : Ruled p.grammar p.rules) (hsight : p.Sighted items) :
    p.denote (closure p.rules (edgesOf p.rules) p.grammar.nextId items) =
      Dotted.closureOf p.grammar (fun w => Option.Rel (p.grammar.Ahead w)) (p.denote items) := by
  have hstands : ∀ {i d}, Stands (closure p.rules (edgesOf p.rules) p.grammar.nextId items) i d ↔
      Opens p.rules (Stands items) i d := (h.exact []).stands_closure_iff (hsight.lt h.wf)
  have hhas : ∀ {i d n}, Has (closure p.rules (edgesOf p.rules) p.grammar.nextId items) i d n ↔
      Closes p.grammar p.rules (Has items) i d n := (h.exact []).has_closure (hsight.lt h.wf)
  ext x
  constructor
  · obtain ⟨q, d, o⟩ := x
    rintro ⟨i, r, hr, rfl, hs, hahead⟩
    cases o with
    | none => exact brought_of_opens h (hstands.mp hs) hr
    | some a =>
      obtain ⟨ha, hn⟩ := hahead a rfl
      obtain ⟨a', ha', hid, hx⟩ := brought_of_closes h hsight (hhas.mp hn) hr
      obtain rfl := h.wf.eq_of_id (Grammar.mem_symbols_of_ahead ha')
          (Grammar.mem_symbols_of_ahead ha) hid
      exact hx
  · intro hx
    induction hx with
    | given hx =>
      obtain ⟨i, r, hr, hprod, hs, hahead⟩ := hx
      exact ⟨i, r, hr, hprod, hstands.mpr (.given hs), fun a ha => (hahead a ha).imp_right fun hn =>
        hhas.mpr (.given hn)⟩
    | @expand x w q b _ hw hs hq hlook ih =>
      obtain ⟨y, d, o⟩ := x
      obtain ⟨i, r, hr, hprod, hy, hahead⟩ := ih
      obtain ⟨j, r', hr', rfl⟩ := h.rule_of_mem hq
      subst hprod
      obtain rfl := (h.rewrites_iff hr).mp hw
      refine ⟨j, r', hr', rfl, hstands.mpr (.expand (hstands.mp hy) hr hs hr'), fun c hc => ?_⟩
      -- a lookahead comes from the rest of the right side, or from the lookahead of the item
      cases hlook with
      | none => cases hc
      | @some a c' hlook =>
        obtain rfl := Option.some.inj hc
        obtain ⟨ha, hn⟩ := hahead a rfl
        rw [Grammar.Ahead, Grammar.begins_concat_iff (h.wf.isTerminal_of_ahead ha)
          h.wf.headsNonterminal] at hlook
        refine ⟨?_, hhas.mpr (.expand (hhas.mp hn) hr hs hr' ?_)⟩
        · rcases hlook with hb | ⟨-, rfl⟩
          · exact h.mem_aheads_of_begins hr hb
          · exact ha
        · exact hlook.imp (fun hb => ⟨_, hb, rfl⟩) (And.imp_right (congrArg Symbol.id))

namespace Faithful

theorem mem_denote (h : p.Faithful start) (hr : p.rules[i]? = some r) :
    ⟨r.production, d, o⟩ ∈ p.denote items ↔ Stands items i d ∧ ∀ a ∈ o, a ∈ p.aheads ∧
    Has items i d a.id := by
  constructor
  · rintro ⟨j, r', hr', hprod, hx⟩
    rwa [h.rule_inj hr' hr hprod] at hx
  · exact fun hx => ⟨i, r, hr, rfl, hx⟩

/-! ### Moves -/

theorem denote_kernel (h : p.Faithful start) (items : List Item) (s : Symbol) :
    p.denote (kernel p.rules items s) = Dotted.advance p.grammar (p.denote items) s := by
  ext ⟨q, d, o⟩
  constructor
  · rintro ⟨i, r, hr, rfl, hstands, hahead⟩
    obtain ⟨d', r', rfl, hstands, hr', hs⟩ := stands_kernel_iff.mp hstands
    cases hr.symm.trans hr'
    refine ⟨⟨r.production, d', o⟩, (h.mem_denote hr).mpr ⟨hstands, fun a ha => ?_⟩,
      (h.ruled.expects_iff hr).mpr hs, rfl⟩
    obtain ⟨hmem, hn⟩ := hahead a ha
    obtain ⟨e, -, he, hn, -⟩ := has_kernel.mp hn
    exact ⟨hmem, Nat.succ.inj he ▸ hn⟩
  · rintro ⟨⟨q', e, o'⟩, ⟨i, r, hr, hprod, hstands, hahead⟩, hs, heq⟩
    simp only [Dotted.mk.injEq] at heq hprod
    obtain ⟨rfl, rfl, rfl⟩ := heq
    subst hprod
    have hs := (h.ruled.expects_iff hr).mp hs
    refine ⟨i, r, hr, rfl, stands_kernel_iff.mpr ⟨e, r, rfl, hstands, hr, hs⟩, fun a ha => ?_⟩
    obtain ⟨hmem, hn⟩ := hahead a ha
    exact ⟨hmem, has_kernel.mpr ⟨e, r, rfl, hn, hr, hs⟩⟩

/-! ### States -/

theorem sighted_label (h : p.Faithful start) (hq : p.automaton.states[i]? = some q) :
    p.Sighted q.label := by
  intro i d n hn
  obtain ⟨γ, hlabels⟩ := h.exists_labels hq
  obtain ⟨a, ha, hid⟩ := hlabels.has.mp hn
  exact ⟨a, ha.mem_terminals h.numbered h.wf h.plain, hid⟩

theorem sighted_kernel (hsight : p.Sighted items) (s : Symbol) :
    p.Sighted (kernel p.rules items s) := by
  intro i d n hn
  obtain ⟨d', r, -, hn, -⟩ := has_kernel.mp hn
  exact hsight hn

theorem denote_move (h : p.Faithful start) (hq : p.automaton.states[i]? = some q) (s : Symbol) :
    p.denote (closure p.rules (edgesOf p.rules) p.grammar.nextId (kernel p.rules q.label s)) =
      Dotted.goto p.grammar (fun w => Option.Rel (p.grammar.Ahead w)) (p.denote q.label) s := by
  rw [denote_closure h.ruled (sighted_kernel (h.sighted_label hq) s), h.denote_kernel]
  rfl

theorem denote_first (h : p.Faithful start) (hr : p.rules[0]? = some r) :
    p.denote [p.firstItem] = {⟨r.production, 0, none⟩,
      ⟨r.production, 0, some p.grammar.endMark⟩} := by
  have hstands : ∀ {i d}, Stands [p.firstItem] i d ↔ i = 0 ∧ d = 0 := by
    intro i d
    simp only [Stands, List.mem_singleton, exists_eq_left, firstItem, eq_comm (a := (0 : Nat))]
  have hhas : ∀ {n}, Has [p.firstItem] 0 0 n ↔ n = p.grammar.endMark.id := by
    intro n
    simp only [Has, List.mem_singleton, exists_eq_left, firstItem, BitSet.contains_singleton,
      decide_eq_true_iff,
      true_and, eq_comm (a := p.grammar.endMark.id)]
  ext ⟨q, d, o⟩
  rw [Set.mem_insert_iff, Set.mem_singleton_iff]
  simp only [Dotted.mk.injEq]
  constructor
  · rintro ⟨i, r', hr', rfl, hs, hahead⟩
    obtain ⟨rfl, hd⟩ := hstands.mp hs
    simp only at hd
    subst hd
    cases hr.symm.trans hr'
    cases o with
    | none => exact .inl ⟨rfl, rfl, rfl⟩
    | some a =>
      obtain ⟨ha, hn⟩ := hahead a rfl
      have heq := h.wf.eq_of_id (Grammar.mem_symbols_of_ahead ha) (.head _) (hhas.mp hn)
      exact .inr ⟨rfl, rfl, by rw [heq]⟩
  · rintro (⟨rfl, rfl, rfl⟩ | ⟨rfl, rfl, rfl⟩)
    · exact (h.mem_denote hr).mpr ⟨hstands.mpr ⟨rfl, rfl⟩, by simp⟩
    · refine (h.mem_denote hr).mpr ⟨hstands.mpr ⟨rfl, rfl⟩, fun a ha => ?_⟩
      obtain rfl := Option.some.inj ha
      exact ⟨List.mem_append_right _ (List.mem_singleton.mpr rfl), hhas.mpr rfl⟩

theorem sighted_first (p : Parser ρ) : p.Sighted [p.firstItem] := by
  rintro i d n ⟨x, hx, -, -, hn⟩
  cases List.mem_singleton.mp hx
  refine ⟨p.grammar.endMark, List.mem_append_right _ (List.mem_singleton.mpr rfl), ?_⟩
  simpa only [firstItem, BitSet.contains_singleton, decide_eq_true_iff, eq_comm (a := n)] using hn

theorem denote_start (h : p.Faithful start) (hr : p.rules[0]? = some r) :
    p.denote (closure p.rules (edgesOf p.rules) p.grammar.nextId [p.firstItem]) =
      Dotted.closureOf p.grammar (fun w => Option.Rel (p.grammar.Ahead w))
        {⟨r.production, 0, none⟩, ⟨r.production, 0, some p.grammar.endMark⟩} := by
  rw [denote_closure h.ruled (sighted_first p), h.denote_first hr]

end Faithful

/-! ### Making the parser -/

section Make

variable {g : Grammar ρ} {p : Parser ρ} {start : Symbol}

/-- The parser of a grammar can be made, and numbers every production once, first the one of the new
start symbol. -/
theorem ofGrammar_faithful (hg : g.Proper start) :
    ∃ p top q, ofGrammar g = .ok p ∧ g.Augments start p.grammar top q ∧ p.Faithful start ∧
    p.automaton = renumber (p.setting.search p.firstItem).automaton ∧
    (p.rules.toList.map (·.production)).Perm p.grammar.productions ∧ ∃ r, p.rules[0]? = some r ∧
    r.production = q := by
  obtain ⟨p, top, q, hp, haug, hcon⟩ := ofGrammar_ok hg
  obtain ⟨hrules, hauto⟩ := parts_of_ofGrammar hp
  have hold := haug.nodup hg.built.wf hg.productions_nodup
  have hnodup := haug.wf.nodup_flatMap_productionsOf hold
  refine ⟨p, top, q, hp, haug, ⟨hcon, rule_inj hrules hnodup, fun hq hq' =>
    hcon.label_injective hauto hq hq'⟩,
    hauto, ?_, ?_⟩
  · rw [productions_rulesOf hrules]
    exact (List.perm_ext_iff_of_nodup hnodup hold).mpr fun _ => mem_flatMap_productionsOf haug.wf
  · obtain ⟨r, hr, -⟩ := hcon.numbered.first
    have hfirst := getElem?_productions hrules hr
    rw [flatMap_productionsOf hg.built.wf haug] at hfirst
    exact ⟨r, hr, (Option.some.inj hfirst).symm⟩

end Make

end Parser

end AutoCool.LR1
