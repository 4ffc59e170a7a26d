import AutoCool.Proofs.LR1.Termination

/-!
# The token at which an input is rejected

A parser without conflicts, of a grammar all of whose nonterminals derive a word, rejects an input
at the first token that cannot go on (`Parser.prefix_of_rejected`): what was read before it begins a
word of the grammar, and with the token it begins none. The symbols on the stack can be completed to
a word because an item is valid after them (`Valid.completes`). And a run that has come to a token
does not know what follows, so it would stop there on a word of the grammar too.
-/

namespace AutoCool

variable {ρ : Type}

theorem Grammar.spells_exists {g : Grammar ρ} (hw : ∀ s ∈ w, ∃ ps x, g.Spells [s] ps x) :
    ∃ ps x, g.Spells w ps x := by
  induction w with
  | nil => exact ⟨[], [], .nil⟩
  | cons s w ih =>
    obtain ⟨ps, x, hs⟩ := hw s (.head _)
    obtain ⟨qs, y, hw⟩ := ih fun t ht => hw t (.tail s ht)
    exact ⟨ps ++ qs, x ++ y, hs.append hw⟩

namespace LR1

variable {p : Parser ρ} {g : Grammar ρ} {start : Symbol} {c : Configuration}

/-- The symbols before a valid item, the rest of its right side and some further symbols of right
sides make up a phrase that the start symbol leads to. -/
theorem Valid.completes (hr : Numbered g start rules) (h : Valid g rules γ i d a) :
    ∀ {r : Rule ρ}, rules[i]? = some r →
    ∃ w, (∀ s ∈ w, ∃ (j : Nat) (r' : Rule ρ), rules[j]? = some r' ∧ s ∈ r'.symbols) ∧
      ∀ ps x, g.Spells (γ.reverse ++ (r.symbols.drop d ++ w)) ps x →
        ∃ qs, g.Spells [start] qs x := by
  induction h with
  | start =>
    intro r hi
    obtain ⟨r0, hr0, hsym⟩ := hr.first
    cases hi.symm.trans hr0
    exact ⟨[], by simp, fun ps x hs => ⟨ps, by simpa [hsym] using hs⟩⟩
  | @advance γ i d a s r' _ hi' hs ih =>
    intro r hi
    cases hi.symm.trans hi'
    obtain ⟨w, hw, hcompl⟩ := ih hi
    refine ⟨w, hw, fun ps x hx => hcompl ps x ?_⟩
    rw [Rule.drop_of_next? hs]
    simpa using hx
  | @expand γ i d a j b r r' _ hi hs hj _ ih =>
    intro r1 hj'
    cases hj'.symm.trans hj
    obtain ⟨w, hw, hcompl⟩ := ih hi
    refine ⟨r.symbols.drop (d + 1) ++ w, ?_, fun ps x hx => ?_⟩
    · intro s hmem
      rcases List.mem_append.mp hmem with hmem | hmem
      · exact ⟨i, r, hi, List.mem_of_mem_drop hmem⟩
      · exact hw s hmem
    · -- the right side is put together to its head
      obtain ⟨ps1, ps', x1, x', rfl, rfl, hγ, hrest⟩ := hx.split
      obtain ⟨ps2, ps3, x2, x3, rfl, rfl, hbody, hw'⟩ := hrest.split
      rw [List.drop_zero] at hbody
      have hphrase := hγ.append (.production (hr.rewrites hj) hbody hw')
      rw [← List.cons_append, ← Rule.drop_of_next? hs] at hphrase
      exact hcompl _ _ hphrase

namespace Parser

/-- What was read begins a word, when every symbol of a right side derives one. -/
theorem Canonical.prefix_exists (hp : p.Canonical start) (hlive : p.grammar.Live)
    (hprod : ∀ s, p.Occurs s → ∃ ps x, p.grammar.Spells [s] ps x) (h : p.Tracks w c γ past) :
    ∃ ps x, p.grammar.Spells [start] ps (past.map (·.type) ++ x) := by
  obtain ⟨i, d, a, hv⟩ := hp.valid_of_path hlive h.path
  obtain ⟨r, hr⟩ := hv.rule_exists hp.numbered
  obtain ⟨v, hv, hcompl⟩ := hv.completes hp.numbered hr
  obtain ⟨ps, x, hx⟩ :=
      Grammar.spells_exists (g := p.grammar) (w := r.symbols.drop d ++ v) fun s hs => by
    rcases List.mem_append.mp hs with hs | hs
    · exact hprod s ⟨i, r, hr, List.mem_of_mem_drop hs⟩
    · exact hprod s (hv s hs)
  obtain ⟨qs, hqs⟩ := hcompl _ _ (h.spells.append hx)
  exact ⟨qs, x, hqs⟩

/-- A token without an action does not come next in any word. -/
theorem Canonical.not_prefix (hp : p.Canonical start) (hlr : p.isLR1 = true)
    (h : p.Steps { rest := past ++ t :: rest } ⟨q :: st, t :: rest, out, ops⟩)
    (ha : p.action? q t.type = none) (hx : p.grammar.Spells [start] ps x) :
    ¬ (past ++ [t]).map (·.type) <+: x ++ [p.grammar.endMark] := by
  rintro ⟨z, hz⟩
  let rest' : List Token := z.map fun s => { type := s, lexeme := .text s.name }
  have htypes : (past ++ t :: rest').map (·.type) = x ++ [p.grammar.endMark] := by
    rw [← hz]
    simp [rest', Function.comp_def]
  obtain ⟨toks, last, hw, htoks, hlast⟩ := List.map_eq_append_iff.mp htypes
  obtain ⟨eof, rfl, heof⟩ := List.map_eq_singleton_iff.mp hlast
  obtain ⟨c, hc, -⟩ := hp.run_of_spells hlr hx htoks heof []
  obtain ⟨past', hpast, hsteps⟩ := h.with_rest rfl
  obtain rfl := List.append_cancel_right hpast
  rw [← hw, (hsteps rest').run_eq, run_of_step (step_fail ha) (by simp)] at hc
  cases hc

/-- An input is rejected at its first token that cannot go on: the types before it begin a word of
the grammar with the end mark behind it, and with the type of the token they begin none. -/
theorem prefix_of_rejected (hg : g.Proper start)
    (hprod : ∀ s ∈ g.nonterminals, ∃ x, g.Generates s x) :
    ∃ p, ofGrammar g = .ok p ∧ (p.isLR1 = true → ∀ toks eof stack rest, eof.type = g.endMark →
      p.parse (toks ++ [eof]) = .rejected stack rest →
      ∃ past t rest', rest = t :: rest' ∧ toks ++ [eof] = past ++ t :: rest' ∧
        (∃ x, g.Generates start x ∧ past.map (·.type) <+: x ++ [g.endMark]) ∧
        ¬ ∃ x, g.Generates start x ∧ (past ++ [t]).map (·.type) <+: x ++ [g.endMark]) := by
  obtain ⟨p, top, q, hp, haug, hmade⟩ := ofGrammar_ok hg
  refine ⟨p, hp, fun hlr toks eof stack rest heof hrej => ?_⟩
  have hcan := hmade.canonical
  have hgen : ∀ {s x}, g.Generates s x ↔ ∃ ps, g.Spells [s] ps x :=
    Grammar.generates_iff_spells hg.built.wf.headsNonterminal
  have hoccurs : ∀ s, p.Occurs s → ∃ ps x, p.grammar.Spells [s] ps x := by
    rintro s ⟨i, r, hi, hs⟩
    have hmem := haug.mem_of_rewrites hg.plain hg.start_mem (hmade.numbered.rewrites hi) s hs
    rcases List.mem_append.mp hmem with hs | hs
    · exact ⟨[], [s], .terminal (hg.built.wf.isTerminal hs) .nil⟩
    · obtain ⟨x, hx⟩ := hprod s hs
      obtain ⟨ps, hps⟩ := hgen.mp hx
      exact ⟨ps, x, haug.spells hps⟩
  have hw : ∃ t ∈ toks ++ [eof], t.type = p.grammar.endMark :=
    ⟨eof, by simp, heof.trans haug.endMark.symm⟩
  obtain ⟨c, c', hsteps, hfail, -, rfl⟩ := steps_of_rejected hrej
  obtain ⟨γ, past, htracks⟩ := hcan.tracks_steps hsteps
  obtain ⟨rfl, k, t, hst, ht, hact⟩ := (hcan.safe htracks hw).fail hfail
  obtain ⟨stack, _, out, ops⟩ := c'
  obtain ⟨st, rfl⟩ := List.head?_eq_some_iff.mp hst
  obtain ⟨rest, rfl⟩ := List.head?_eq_some_iff.mp ht
  refine ⟨past, t, rest, rfl, htracks.input, ?_, ?_⟩
  · obtain ⟨ps, x, hx⟩ := hcan.prefix_exists (haug.live (hg.live hprod)) hoccurs htracks
    exact ⟨_, hgen.mpr ⟨ps, (hg.spells_iff haug).mp hx⟩, x ++ [g.endMark], by simp⟩
  · rintro ⟨x, hx, hpre⟩
    obtain ⟨ps, hps⟩ := hgen.mp hx
    rw [htracks.input] at hsteps
    rw [← haug.endMark] at hpre
    exact hcan.not_prefix hlr hsteps hact ((hg.spells_iff haug).mpr hps) hpre

theorem prefix_of_rejected_nested : ∃ p stack, ofGrammar Sample.nested = .ok p ∧
    p.parse (Sample.tokens [Sample.a]) = .rejected stack (Sample.tokens []) ∧
    (∃ x, Sample.nested.Generates Sample.S x ∧ [Sample.a] <+: x ++ [.endMark 0]) ∧
    ¬ ∃ x, Sample.nested.Generates Sample.S x ∧ [Sample.a, .endMark 0] <+: x ++ [.endMark 0] := by
  obtain ⟨p, hp, h⟩ := prefix_of_rejected Sample.nested_proper Sample.nested_generates
  have hrun : ∀ p ∈ (ofGrammar Sample.nested).toOption,
      p.runWithin 2 { rest := Sample.tokens [Sample.a] } =
      some (.fail { stack := [1, 0], rest := Sample.tokens [], operations := [.shift] }) := by
    simp only [ofGrammar, renumber, Automaton.visit, Graph.preorder_eq_walk]
    decide +kernel
  have hparse := parse_of_fail (run_of_runWithin (hrun p (mem_toOption hp)))
  obtain ⟨past, t, rest, hrest, hw, hyes, hno⟩ := h (Sample.nested_isLR1 p (mem_toOption hp))
    [Sample.token Sample.a] (.ofEndMark (.endMark 0)) _ _ rfl hparse
  obtain ⟨rfl, rfl⟩ : t = .ofEndMark (.endMark 0) ∧ rest = [] := by
    cases hrest
    exact ⟨rfl, rfl⟩
  obtain rfl := List.append_cancel_right hw
  exact ⟨p, _, hp, hparse, hyes, hno⟩

end Parser

end LR1

end AutoCool
