import AutoCool.Proofs.Grammar.Augmented
import AutoCool.Proofs.Grammar.First
import AutoCool.Proofs.LR1.Valid

/-!
# The rules of a grammar

When the right sides are words of declared symbols, the rules are those of the productions
(`Ruled`). No rule has an obstacle, and the spreads at their places are exact (`Spreads`): they tell
what the rest of a right side can begin with, and whether it can be empty. The rules of an augmented
grammar number its productions, the one of the new start symbol first (`Numbered`).
-/

namespace AutoCool.LR1

variable {ρ : Type}

/-- The spreads of the rules are exact, and items can stand at all places. -/
structure Spreads (g : Grammar ρ) (rules : Array (Rule ρ)) : Prop where
  obstacle : ∀ {i : Nat} {r : Rule ρ}, rules[i]? = some r → r.obstacle = none
  spread : ∀ {i d : Nat} {r : Rule ρ} {s : Symbol}, rules[i]? = some r → r.next? d = some s →
    s.isNonterminal = true → ∃ e, r.spread? d = some e ∧ e.target = s.id ∧ e.fault = none ∧
      (∀ n, e.begins.contains n = true ↔ ∃ b, g.Begins (r.symbols.drop (d + 1)) b ∧ b.id = n) ∧
      (e.passes = true ↔ g.Nullable (r.symbols.drop (d + 1)))
  expects : ∀ {i d : Nat} {r : Rule ρ} {e : Spread}, rules[i]? = some r → r.spread? d = some e →
    ∃ s, r.next? d = some s ∧ s.isNonterminal = true

theorem readParts_map_symbol (w : List Symbol) :
    readParts (w.map fun s => (.symbol s : Term ρ)) = (w, none) := by
  induction w with
  | nil => rfl
  | cons s w ih => simp only [List.map_cons, readParts, ih]; rfl

theorem partsOf_word (h : b.word? = some w) : partsOf b = .ok (w.map .symbol) := by
  cases b with
  | epsilon => cases h; rfl
  | sentence symbols => cases h; rfl
  | stray e => cases h

theorem spreadsOf_getElem? (t : FirstTable ρ) (w : List Symbol) (d : Nat) :
    (spreadsOf t (w.map .symbol))[d]? =
      w[d]?.map fun s => spreadOf t s ((w.drop (d + 1)).map .symbol) := by
  induction w generalizing d with
  | nil => rfl
  | cons s w ih =>
    cases d with
    | zero => simp [spreadsOf]
    | succ d => simp [spreadsOf, ih]

theorem ruleOf_word (h : p.body.word? = some w) :
    ruleOf t p = { production := p, symbols := w, spreads := spreadsOf t (w.map .symbol) } := by
  simp only [ruleOf, partsOf_word h, readParts_map_symbol]

theorem spread?_word {t : FirstTable ρ} {p : Production ρ} {w : List Symbol}
    (h : p.body.word? = some w)
    (d : Nat) : (ruleOf t p).spread? d =
      w[d]?.bind fun s => spreadOf t s ((w.drop (d + 1)).map .symbol) := by
  rw [ruleOf_word h, Rule.spread?, spreadsOf_getElem?]
  cases w[d]? <;> rfl

section Rules

variable {g : Grammar ρ} {rules : Array (Rule ρ)} {t : FirstTable ρ} {i : Nat} {r : Rule ρ}

theorem spreadOf_exact (hsound : t.Sound g) (hclosed : t.Closed g) (hs : s.isNonterminal = true)
    (hw : ∀ x ∈ w, ∃ f, t.get? x = some f) :
    ∃ e, spreadOf t s (w.map .symbol) = some e ∧ e.target = s.id ∧ e.fault = none ∧
      (∀ n, e.begins.contains n = true ↔ ∃ b, g.Begins w b ∧ b.id = n) ∧
      (e.passes = true ↔ g.Nullable w) := by
  obtain ⟨r, hr⟩ := t.phrase_ok hw
  refine ⟨_, by rw [spreadOf, if_pos hs, FirstTable.parts_map_symbol, hr], rfl,
    rfl, fun n => ?_, (hsound.phrase hr).nullable, fun h => hclosed.epsilon h hr⟩
  rw [BitSet.contains_ofList, decide_eq_true_iff, List.mem_map]
  exact ⟨fun ⟨b, hb, hn⟩ => ⟨b, (hsound.phrase hr).begins b hb, hn⟩,
    fun ⟨b, hb, hn⟩ => ⟨b, hclosed.mem hb hr, hn⟩⟩

/-! ### The end mark -/

/-- The FIRST sets with that of the end mark, which begins with itself. -/
def withEnd (g : Grammar ρ) (t : FirstTable ρ) : FirstTable ρ :=
  { t with symbols := t.symbols ++ [(g.endMark, { items := [g.endMark] })] }

theorem get?_withEnd (h : (withEnd g t).get? s = some f) :
    t.get? s = some f ∨ s = g.endMark ∧ f = { items := [g.endMark] } := by
  rw [FirstTable.get?, withEnd, List.lookup_append, Option.or_eq_some_iff, List.lookup_cons] at h
  refine h.imp_right fun h => ?_
  by_cases hs : s = g.endMark
  · rw [hs, beq_self_eq_true] at h
    exact ⟨hs, (Option.some.inj h.2).symm⟩
  · rw [beq_false_of_ne hs] at h
    cases h.2

theorem firsts_withEnd_ok (hg : g.WF) (hplain : g.Plain) :
    ∃ t, g.firsts = .ok t ∧ (withEnd g t).Sound g ∧ (withEnd g t).Closed g ∧ ∀ s ∈ g.symbols, ∃ f,
    (withEnd g t).get? s = some f := by
  obtain ⟨t, hfirsts, hsound, hclosed, hget⟩ := Grammar.firsts_ok hg hplain
  have hmono : ∀ s f, t.get? s = some f → (withEnd g t).get? s = some f := fun s f hf => by
    rw [FirstTable.get?, withEnd, List.lookup_append]
    exact Option.or_eq_some_iff.mpr (.inl hf)
  refine ⟨t, hfirsts, fun s f hf => ?_, ⟨fun s f hf hs => ?_, fun p hp w hw => ?_⟩, fun s hs => ?_⟩
  · rcases get?_withEnd hf with hf | ⟨rfl, rfl⟩
    · exact hsound s f hf
    · refine ⟨List.nodup_singleton _, fun x hx => ?_, by simp⟩
      rw [List.mem_singleton.mp hx]
      exact .terminal hg.endMark_isTerminal
  · rcases get?_withEnd hf with hf | ⟨rfl, rfl⟩
    · exact hclosed.terminal s f hf hs
    · exact List.mem_singleton.mpr rfl
  · obtain ⟨f, r, hf, hr, hsub⟩ := hclosed.production p hp w hw
    exact ⟨f, r, hmono _ _ hf, FirstTable.phrase_mono hmono hr, hsub⟩
  · cases hf : t.get? s with
    | some f => exact ⟨f, hmono s f hf⟩
    | none =>
      obtain rfl : s = g.endMark := (List.mem_cons.mp hs).resolve_right fun hs => by
        obtain ⟨f, hf'⟩ := (hget s).mpr hs
        cases hf.symm.trans hf'
      refine ⟨{ items := [g.endMark] }, ?_⟩
      rw [FirstTable.get?, withEnd, List.lookup_append, show t.symbols.lookup g.endMark =
        none from hf]
      simp

/-! ### Numbering the productions -/

/-- The rules are those of a grammar whose right sides are words of declared symbols, and their
spreads are exact. -/
structure Ruled (g : Grammar ρ) (rules : Array (Rule ρ)) : Prop where
  wf : g.WF
  plain : g.Plain
  rewrites : ∀ {i : Nat} {r : Rule ρ}, rules[i]? = some r → g.Rewrites r.production r.symbols
  rule_of_mem : ∀ {q}, q ∈ g.productions → ∃ (i : Nat) (r : Rule ρ), rules[i]? = some r ∧
    r.production = q
  spreads : Spreads g rules

theorem production_ruleOf (t : FirstTable ρ) (q : Production ρ) : (ruleOf t q).production = q := by
  unfold ruleOf
  split <;> rfl

theorem productions_rulesOf (h : rulesOf g = .ok rules) :
    rules.toList.map (·.production) = g.nonterminals.flatMap g.productionsOf := by
  unfold rulesOf at h
  cases hfirsts : g.firsts with
  | error e => rw [hfirsts] at h; cases h
  | ok t =>
    rw [hfirsts] at h
    obtain rfl := Except.ok.inj h
    rw [List.map_map]
    exact (List.map_congr_left fun q _ => production_ruleOf _ q).trans (List.map_id _)

theorem getElem?_productions (h : rulesOf g = .ok rules) (hr : rules[i]? = some r) :
    (g.nonterminals.flatMap g.productionsOf)[i]? = some r.production := by
  rw [← productions_rulesOf h, List.getElem?_map, Array.getElem?_toList, hr]
  rfl

theorem rule_inj (h : rulesOf g = .ok rules)
    (hnodup : (g.nonterminals.flatMap g.productionsOf).Nodup) (hr : rules[i]? = some r)
    (hr' : rules[j]? = some r') (heq : r.production = r'.production) : i = j := by
  have hi := getElem?_productions h hr
  exact (List.getElem?_inj (List.getElem?_eq_some_iff.mp hi).1 hnodup).mp
    (by rw [hi, getElem?_productions h hr', heq])

theorem mem_flatMap_productionsOf (hg : g.WF) :
    q ∈ g.nonterminals.flatMap g.productionsOf ↔ q ∈ g.productions := by
  rw [hg.filed_eq]
  simp only [List.mem_flatMap, Grammar.productionsOf, List.mem_filter, beq_iff_eq]
  exact ⟨fun ⟨_, _, hq, _⟩ => hq, fun hq => ⟨q.head, hg.head_mem q hq, hq, rfl⟩⟩

theorem rulesOf_ok (hg : g.WF) (hplain : g.Plain) :
    ∃ rules, rulesOf g = .ok rules ∧ Ruled g rules := by
  obtain ⟨t, hfirsts, hsound, hclosed, hget⟩ := firsts_withEnd_ok hg hplain
  have hrules : rulesOf g =
      .ok ((g.nonterminals.flatMap g.productionsOf).map (ruleOf (withEnd g t))).toArray := by
    rw [rulesOf, hfirsts]
    rfl
  have hrule : ∀ {i : Nat} {r : Rule ρ},
      (((g.nonterminals.flatMap g.productionsOf).map (ruleOf (withEnd g t))).toArray)[i]? = some r →
      ∃ q w, g.Rewrites q w ∧ r = ruleOf (withEnd g t) q ∧ r.symbols = w := by
    intro i r hr
    rw [List.getElem?_toArray, List.getElem?_map] at hr
    obtain ⟨q, hq, rfl⟩ := Option.map_eq_some_iff.mp hr
    have hmem := (mem_flatMap_productionsOf hg).mp (List.mem_of_getElem? hq)
    obtain ⟨w, hw, -⟩ := hplain q hmem
    exact ⟨q, w, ⟨hmem, hw⟩, rfl, by rw [ruleOf_word hw]⟩
  refine ⟨_, hrules, hg, hplain, fun hr => ?_, fun {q} hq => ?_, fun hr => ?_,
    fun {i d r s} hr hs hnt => ?_,
    fun {i d r e} hr he => ?_⟩
  · obtain ⟨q, w, hw, rfl, rfl⟩ := hrule hr
    rwa [production_ruleOf]
  · obtain ⟨i, hi⟩ := List.mem_iff_getElem?.mp ((mem_flatMap_productionsOf hg).mpr hq)
    refine ⟨i, ruleOf (withEnd g t) q, ?_, production_ruleOf _ q⟩
    rw [List.getElem?_toArray, List.getElem?_map, hi]
    rfl
  · obtain ⟨q, w, hw, rfl, -⟩ := hrule hr
    rw [ruleOf_word hw.2]
  · obtain ⟨q, w, hw, rfl, hsym⟩ := hrule hr
    rw [Rule.next?, hsym] at hs
    rw [spread?_word hw.2, hs, hsym]
    refine spreadOf_exact hsound hclosed hnt fun x hx => hget x (.tail _ ?_)
    exact hplain.mem_of_rewrites hw x (List.mem_of_mem_drop hx)
  · obtain ⟨q, w, hw, rfl, hsym⟩ := hrule hr
    rw [spread?_word hw.2] at he
    obtain ⟨s, hs, he⟩ := Option.bind_eq_some_iff.mp he
    refine ⟨s, by rw [Rule.next?, hsym]; exact hs, ?_⟩
    by_contra hnt
    rw [spreadOf, if_neg hnt] at he
    cases he

end Rules

section Augmented

variable {g g' : Grammar ρ} {start top : Symbol} {p : Production ρ} {rules : Array (Rule ρ)}

/-- The productions in the order of the rules: first that of the new start symbol, then those of the
others.
-/
theorem flatMap_productionsOf (hg : g.WF) (h : g.Augments start g' top p) :
    g'.nonterminals.flatMap g'.productionsOf = p :: g.nonterminals.flatMap g.productionsOf := by
  have hne : ∀ s ∈ g.nonterminals, s ≠ top := fun s hs he =>
    h.top_notMem hg (he ▸ .tail _ (List.mem_append_right _ hs))
  have hfiled : g'.filed = g.filed ++ [p] := by rw [← h.wf.filed_eq, h.productions, hg.filed_eq]
  have htop : g'.productionsOf top = [p] := by
    have hold : g.filed.filter (·.head == top) = [] :=
      List.filter_eq_nil_iff.mpr fun q hq => by simpa using hne _ (hg.head_mem q hq)
    rw [Grammar.productionsOf, hfiled, List.filter_append, hold]
    simp [h.head]
  have hof : g.nonterminals.flatMap g'.productionsOf = g.nonterminals.flatMap g.productionsOf := by
    refine List.flatMap_congr fun s hs => ?_
    have hs' : (top == s) = false := beq_eq_false_iff_ne.mpr (hne s hs).symm
    rw [Grammar.productionsOf, hfiled, List.filter_append, Grammar.productionsOf]
    simp [h.head, hs']
  rw [h.nonterminals, List.flatMap_cons, htop, hof]
  rfl

theorem Ruled.numbered (hr : Ruled g' rules) (hrules : rulesOf g' = .ok rules) (hg : g.WF)
    (hplain : g.Plain) (hstart : start ∈ g.nonterminals) (h : g.Augments start g' top p) :
    Numbered g' start rules ∧ ∃ r, rules[0]? = some r ∧ r.production = p := by
  have hprods : ∀ {i : Nat} {r : Rule ρ}, rules[i]? = some r →
      (p :: g.nonterminals.flatMap g.productionsOf)[i]? = some r.production := fun hr => by
    rw [← flatMap_productionsOf hg h]
    exact getElem?_productions hrules hr
  have hfirst : ∀ {r0 : Rule ρ}, rules[0]? = some r0 → r0.production = p := fun hr0 =>
    (Option.some.inj (hprods hr0)).symm
  have hdecl : ∀ {i : Nat} {r : Rule ρ}, rules[i]? = some r → ∀ s ∈ r.symbols,
      s ∈ g.terminals ++ g.nonterminals :=
    fun hi => h.mem_of_rewrites hplain hstart (hr.rewrites hi)
  obtain ⟨r0, hr0⟩ : ∃ r0, rules[0]? = some r0 := by
    obtain ⟨i, r, hi, -⟩ :=
      hr.rule_of_mem (h.productions ▸ List.mem_append_right _ (List.mem_singleton.mpr rfl))
    exact ⟨_, Array.getElem?_eq_getElem (Nat.zero_lt_of_lt (Array.getElem?_eq_some_iff.mp hi).1)⟩
  have hsym : r0.symbols = [start] := by
    have := (hr.rewrites hr0).2
    rw [hfirst hr0, h.body] at this
    exact (Option.some.inj this).symm
  refine ⟨⟨hr.rewrites, hr.rule_of_mem, ⟨r0, hr0, hsym⟩, h.wf.headsNonterminal,
    h.wf.endMark_isTerminal, ?_, ?_, ?_⟩,
    r0, hr0, hfirst hr0⟩
  · intro i r r1 hi hr1
    rw [hfirst hr1, h.head]
    exact fun htop => h.top_notMem hg (.tail _ (hdecl hi top htop))
  · intro i r r1 hi hr1 hhead
    rw [hfirst hr1, h.head] at hhead
    cases i with
    | zero => rfl
    | succ i =>
      have hmem := (mem_flatMap_productionsOf hg).mp (List.mem_of_getElem? (hprods hi))
      have hnt := hg.head_mem _ (hg.filed_eq ▸ hmem)
      exact absurd (.tail _ (List.mem_append_right _ (hhead ▸ hnt))) (h.top_notMem hg)
  · intro i r hi hend
    exact (List.nodup_cons.mp hg.nodup).1 (hdecl hi _ (h.endMark ▸ hend))

end Augmented

end AutoCool.LR1
