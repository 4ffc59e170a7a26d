import AutoCool.Proofs.Grammar.FollowSets
import AutoCool.Proofs.LR1.Conflicts
import AutoCool.Proofs.LR1.Evaluate

/-!
# Lookaheads and FOLLOW sets

What is ahead of a valid item comes after the head of its production (`Valid.comesAfter`), and a new
start symbol adds nothing to what comes after the others (`Augments.of_comesAfter`). So a parser
reduces only before symbols of the FOLLOW set of the head (`Parser.reduce_mem_follow`).
-/

namespace AutoCool

variable {ρ : Type}

namespace Grammar.Augments

variable {g g' : Grammar ρ} {start top s x : Symbol} {p : Production ρ}
  (h : g.Augments start g' top p) (hg : g.WF)
  (hplain : g.Plain) (hstart : start ∈ g.nonterminals)

include h hg hplain hstart

/-- The end mark alone comes after the new start symbol, which stands in no right side. -/
theorem eq_endMark_of_comesAfter (hc : g'.ComesAfter top top x) : x = g.endMark := by
  cases hc with
  | start => exact h.endMark
  | after hq | pass hq => exact absurd (by simp) (h.top_notMem_word hg hplain hstart hq)

theorem of_comesAfter (hc : g'.ComesAfter top s x) (hs : s ≠ top) : g.ComesAfter start s x := by
  induction hc with
  | start => exact absurd rfl hs
  | @after q u s v x hq hb =>
    have hv : top ∉ v := fun hv => h.top_notMem_word hg hplain hstart hq (by simp [hv])
    rcases h.rewrites_or_new hq with hold | rfl
    · exact .after hold (h.of_begins hg hplain hstart hb hv)
    · rw [(h.word_eq hq).2] at hb
      cases hb
  | @pass q u s v x hq hn hc ih =>
    have hv : top ∉ v := fun hv => h.top_notMem_word hg hplain hstart hq (by simp [hv])
    rcases h.rewrites_or_new hq with hold | rfl
    · refine .pass hold (h.of_nullable hg hplain hstart hn hv) (ih fun hhead => h.top_notMem hg ?_)
      exact hhead ▸ .tail _ (List.mem_append_right _ (hg.formed.head_mem q hold.1))
    · -- the new production passes the end mark on to the old start symbol
      obtain ⟨rfl, -⟩ := h.word_eq hq
      rw [h.head] at hc
      rw [h.eq_endMark_of_comesAfter hg hplain hstart hc]
      exact .start

end Grammar.Augments

namespace LR1

/-- What is ahead of a valid item comes after the head of its production. -/
theorem Valid.comesAfter {g : Grammar ρ} {start : Symbol} (hr : Numbered g start rules)
    (hr0 : rules[0]? = some r0) (h : Valid g rules γ i d a) (hi : rules[i]? = some r) :
    g.ComesAfter r0.production.head r.production.head a := by
  induction h generalizing r with
  | start =>
    cases hr0.symm.trans hi
    exact .start
  | advance _ _ _ ih => exact ih hi
  | @expand γ i d a j b r1 r2 h h1 hnext h2 hb ih =>
    cases h2.symm.trans hi
    have hrewrites : g.Rewrites r1.production
        (r1.symbols.take d ++ r2.production.head :: r1.symbols.drop (d + 1)) := by
      rw [← Rule.drop_of_next? hnext, List.take_append_drop]
      exact hr.rewrites h1
    rcases (Grammar.begins_concat_iff (h.isTerminal hr) hr.headsNonterminal).mp
      hb with hb | ⟨hn, rfl⟩
    · exact .after hrewrites hb
    · exact .pass hrewrites hn (ih h1)

namespace Parser

variable {p : Parser ρ} {g : Grammar ρ} {start top : Symbol} {q : Production ρ} {rows : Rows}

/-- A reduction is by a production of the grammar without the new start symbol, before what comes
after its head there. -/
theorem Constructed.comesAfter_of_reduce (h : p.Constructed start) (hg : g.Proper start)
    (haug : g.Augments start p.grammar top q) {k : Nat} (hrows : p.rows[k]? = some rows)
    (hhas : rows.action.Holds a (.reduce i)) :
    ∃ r, p.rules[i]? = some r ∧ r.production ∈ g.productions ∧
    g.ComesAfter start r.production.head a := by
  obtain ⟨st, hst, hfor⟩ := h.for_of_rows hrows
  obtain ⟨x, hx, hask⟩ := hfor.action.mp hhas
  obtain ⟨γ, hlabels⟩ := h.exists_labels hst
  obtain ⟨r, hr, hvalid, heq⟩ := h.complete_of_asks hst hlabels hx hask (by simp)
  obtain ⟨hne, rfl⟩ : x.rule ≠ 0 ∧ i = x.rule := by
    split at heq
    · cases heq
    · exact ⟨‹_›, Action.reduce.inj heq⟩
  obtain ⟨r0, hr0, htop⟩ := h.top
  have hhead : r0.production.head = top := Option.some.inj (htop.symm.trans haug.start_eq)
  have hneq : r.production.head ≠ top :=
    fun he => hne (h.numbered.first_of_head hr hr0 (he.trans hhead.symm))
  have hafter := hvalid.comesAfter h.numbered hr0 hr
  rw [hhead] at hafter
  exact ⟨r, hr, (haug.of_rewrites (h.numbered.rewrites hr) hneq).1,
    haug.of_comesAfter hg.built.wf hg.plain hg.start_mem hafter hneq⟩

/-- A parser reduces only before symbols that the FOLLOW set of the head has. -/
theorem reduce_mem_follow (hg : g.Proper start) :
    ∃ p firsts t, ofGrammar g = .ok p ∧ g.firsts = .ok firsts ∧
    g.follows firsts = .ok t ∧ ∀ (k : Nat) (rows : Rows) (a : Symbol) (i : Nat),
      p.rows[k]? = some rows →
      rows.action.Holds a (.reduce i) → ∃ r f, p.rules[i]? = some r ∧ r.production ∈ g.productions ∧
        t.get? r.production.head = some f ∧ a ∈ f.items := by
  have hstarted := hg.built.wf.started hg.start_eq
  have hformed := hstarted.toFormed
  obtain ⟨p, top, q, hp, haug, h⟩ := ofGrammar_ok hg
  obtain ⟨firsts, hiter₁, hfirsts, hclosed₁, -⟩ := hformed.firsts_ok hg.plain
  obtain ⟨t, hiter, ht, hclosed⟩ :=
    (FollowTable.Inv.base hstarted).iterate_ok hformed hg.plain hfirsts (Nat.le_add_right _ _)
  refine ⟨p, firsts, t, hp, hiter₁ _ (Nat.le_refl _), hiter _ (Nat.le_refl _),
    fun k rows a i hrows hhas => ?_⟩
  obtain ⟨r, hr, hmem, hafter⟩ := h.comesAfter_of_reduce hg haug hrows hhas
  have hhead := hformed.head_mem _ hmem
  obtain ⟨f, hf⟩ := ht.get?_exists hformed hhead
  exact ⟨r, f, hr, hmem, hf,
    ht.mem_of_comesAfter hformed hg.plain hfirsts hclosed₁ hclosed hafter hhead hf⟩

end Parser

/-- The first state for nested pairs reduces by `S → ε` before the end mark, which can come after
`S`. It does not before `b`, which can come after `S` too. -/
theorem reduce_mem_follow_nested : Sample.nested.Proper Sample.S ∧ ∃ p firsts t rows r f,
    Parser.ofGrammar Sample.nested = .ok p ∧ Sample.nested.firsts = .ok firsts ∧
    Sample.nested.follows firsts = .ok t ∧ p.rows[0]? = some rows ∧
    rows.action = [(Sample.nested.endMark, [.reduce 1]), (Sample.a, [.shift 1])] ∧
    p.rules[1]? = some r ∧ r.production ∈ Sample.nested.productions ∧
    t.get? r.production.head = some f ∧ Sample.nested.endMark ∈ f.items ∧ Sample.b ∈ f.items := by
  have hrows : ∀ p ∈ (Parser.ofGrammar Sample.nested).toOption, (p.rows[0]?).map (·.action) =
      some [(Sample.nested.endMark, [.reduce 1]), (Sample.a, [.shift 1])] := by
    simp only [Parser.ofGrammar, renumber, Automaton.visit, Graph.preorder_eq_walk]
    decide +kernel
  have hfollow : ∀ firsts ∈ Sample.nested.firsts.toOption,
      ∀ t ∈ (Sample.nested.follows firsts).toOption,
      ∀ q ∈ Sample.nested.productions, ∀ f ∈ t.get? q.head, Sample.b ∈ f.items := by decide +kernel
  obtain ⟨p, firsts, t, hp, hfirsts, ht, h⟩ := Parser.reduce_mem_follow Sample.nested_proper
  obtain ⟨rows, hrow, haction⟩ := Option.map_eq_some_iff.mp (hrows p (by rw [hp]; rfl))
  obtain ⟨r, f, hr, hmem, hf, ha⟩ := h 0 rows Sample.nested.endMark 1 hrow
      ⟨[.reduce 1], by simp [haction], by simp⟩
  exact ⟨Sample.nested_proper, p, firsts, t, rows, r, f, hp, hfirsts, ht, hrow, haction, hr,
    hmem, hf, ha,
    hfollow firsts (by rw [hfirsts]; rfl) t (by rw [ht]; rfl) _ hmem f hf⟩

end LR1

end AutoCool
