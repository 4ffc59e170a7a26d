import AutoCool.Proofs.LR1.Run

/-!
# A parser without conflicts follows the grammar

When no cell holds two things, a valid item forces what the parser does. Where an item expects a
phrase and the input goes on with a word that the phrase spells, the parser reads the word and makes
the reductions of its syntax tree (`Parser.Canonical.steps_of_spells`). And whenever there is an
action for the next token, the token is read in the end, or the input is accepted
(`Parser.Canonical.consumes_of_action`): the lookahead of a valid item comes from finitely many
productions, and the parser goes along them.
-/

namespace AutoCool.LR1.Parser

variable {ρ : Type} {p : Parser ρ} {start : Symbol} {i j d q : Nat} {r : Rule ρ}

/-! ### Reading a phrase -/

/-- A reduction that an item without competitors asks for, with the stack below it known. -/
theorem Canonical.steps_reduce (hp : p.Canonical start) (hlr : p.isLR1 = true) (hpath : p.Path st γ)
    (hγ : γ = r.symbols.reverse ++ γ') (hst : st.drop r.symbols.length = q :: st') (hi : i ≠ 0)
    (hr : p.rules[i]? = some r) (hv : Valid p.grammar p.rules γ i r.symbols.length t.type) :
    ∃ j, p.Path (j :: q :: st') (r.production.head :: γ') ∧
      ∀ rest out ops, p.step ⟨st, t :: rest, out, ops⟩ =
        .next ⟨j :: q :: st', t :: rest, i :: out, .reduce :: ops⟩ := by
  obtain ⟨q1, st1, rfl⟩ := List.exists_cons_of_ne_nil hpath.ne_nil
  obtain ⟨γ1, q2, st2, j, hγ1, hst2, -, hpath', hstep⟩ :=
    hp.step_reduce hpath hi hr hv (hp.reduce_of_valid hlr hpath hi hr hv)
  cases List.append_cancel_left (hγ.symm.trans hγ1)
  cases hst.symm.trans hst2
  exact ⟨j, hpath', hstep⟩

theorem Canonical.expected_ne_zero (hp : p.Canonical start) (hr : p.rules[i]? = some r)
    (hs : r.next? d = some r'.production.head) (hj : p.rules[j]? = some r') : j ≠ 0 := by
  rintro rfl
  exact hp.numbered.head_first hr hj (List.mem_of_getElem? hs)

theorem begins_of_spells {g : Grammar ρ} (h : g.Spells w ps x) (htoks : toks.map Token.type = x)
    (hb : g.Begins v t.type) (rest : List Token) :
    ∃ t' rest', toks ++ t :: rest = t' :: rest' ∧ g.Begins (w ++ v) t'.type := by
  have hbegins := h.begins_append hb
  subst htoks
  cases toks with
  | nil => exact ⟨t, rest, rfl, by simpa using hbegins⟩
  | cons t' toks => exact ⟨t', toks ++ t :: rest, rfl, by simpa using hbegins⟩

theorem Canonical.steps_of_spells (hp : p.Canonical start) (hlr : p.isLR1 = true)
    (h : p.grammar.Spells w ps x) :
    ∀ toks rest out ops {q st γ i d a v b t} {r : Rule ρ}, p.Path (q :: st) γ →
      Valid p.grammar p.rules γ i d a → p.rules[i]? = some r → r.symbols.drop d = w ++ v →
      p.grammar.Begins (v ++ [a]) b → toks.map Token.type = x → t.type = b →
      ∃ st' is ops', p.Steps ⟨q :: st, toks ++ t :: rest, out, ops⟩
          ⟨st', t :: rest, is.reverse ++ out, ops'⟩ ∧
        p.produced is = ps ∧ p.Path st' (w.reverse ++ γ) ∧ st'.drop w.length = q :: st ∧
        Valid p.grammar p.rules (w.reverse ++ γ) i (d + w.length) a := by
  induction h with
  | nil =>
    intro toks rest out ops q st γ i d a v b t r hpath hv hr hd hb htoks ht
    obtain rfl := List.map_eq_nil_iff.mp htoks
    exact ⟨q :: st, [], ops, .refl, rfl, hpath, rfl, hv⟩
  | @terminal s w ps x hs _ ih =>
    intro toks rest out ops q st γ i d a v b t r hpath hv hr hd hb htoks ht
    obtain ⟨tok, toks, rfl, rfl, htoks'⟩ := List.map_eq_cons_iff.mp htoks
    rw [List.cons_append] at hd
    obtain ⟨hnext, hrest⟩ := Rule.next?_of_drop hd
    obtain ⟨j, hact, hmove⟩ := hp.shift_of_valid hlr hpath hv hr hnext hs
    obtain ⟨st', is, ops', hsteps, his, hpath', hst', hv'⟩ :=
      ih toks rest out (.shift :: ops) (.move hpath (occurs_of_next? hr hnext) hmove)
        (.advance hv hr hnext) hr hrest hb htoks' ht
    refine ⟨st', is, ops', .head (step_shift hact) hsteps, his, by simpa using hpath', ?_, ?_⟩
    · rw [List.length_cons, ← List.drop_drop, hst', List.drop_one, List.tail_cons]
    · simpa [Nat.add_assoc, Nat.add_comm 1] using hv'
  | @production pr body ps x w qs y hpr hbody hw ihbody ihw =>
    intro toks rest out ops q st γ i d a v b t r hpath hv hr hd hb htoks ht
    obtain ⟨toks, toks', rfl, hx, hy⟩ := List.map_eq_append_iff.mp htoks
    obtain ⟨k, rk, hk, rfl⟩ := hp.numbered.rule_of_mem hpr.1
    cases (hp.numbered.rewrites hk).2.symm.trans hpr.2
    rw [List.cons_append] at hd
    obtain ⟨hnext, hrest⟩ := Rule.next?_of_drop hd
    have hk0 := hp.expected_ne_zero hr hnext hk
    obtain ⟨t', rest', hrest', hbt'⟩ := begins_of_spells hw hy (ht ▸ hb) rest
    rw [← List.append_assoc, ← hrest] at hbt'
    obtain ⟨st1, is1, ops1, hsteps1, his1, hpath1, hst1, hv1⟩ :=
      ihbody toks rest' out ops (v := []) hpath (.expand hv hr hnext hk hbt') hk (by simp)
        (.terminal hbt'.isTerminal) hx rfl
    rw [Nat.zero_add] at hv1
    obtain ⟨j, hpath2, hreduce⟩ := hp.steps_reduce hlr hpath1 rfl hst1 hk0 hk hv1
    have hstep := hreduce rest' (is1.reverse ++ out) ops1
    rw [← hrest'] at hsteps1 hstep
    obtain ⟨st3, is3, ops3, hsteps3, his3, hpath3, hst3, hv3⟩ :=
      ihw toks' rest (k :: (is1.reverse ++ out)) (.reduce :: ops1) hpath2 (.advance hv hr hnext) hr
        hrest hb
        hy ht
    refine ⟨st3, is1 ++ k :: is3, ops3, ?_, ?_, by simpa using hpath3, ?_, ?_⟩
    · rw [List.append_assoc]
      refine hsteps1.trans (Steps.head hstep ?_)
      simpa using hsteps3
    · simp only [produced] at his1 his3
      simp [produced, his1, his3, hk]
    · rw [List.length_cons, ← List.drop_drop, hst3, List.drop_one, List.tail_cons]
    · simpa [Nat.add_assoc, Nat.add_comm 1] using hv3

theorem Canonical.run_of_spells (hp : p.Canonical start) (hlr : p.isLR1 = true)
    (h : p.grammar.Spells [start] ps x) (htoks : toks.map Token.type = x)
    (ht : t.type = p.grammar.endMark) (rest : List Token) :
    ∃ c, p.run { rest := toks ++ t :: rest } = some (.accept c) ∧
    p.produced c.output.reverse = ps := by
  obtain ⟨r, hr, hsym⟩ := hp.numbered.first
  obtain ⟨st', is, ops', hsteps, his, hpath, -, hv⟩ :=
    hp.steps_of_spells hlr h toks rest [] [] (v := []) .start .start hr (by simp [hsym])
      (.terminal hp.numbered.endMark_isTerminal) htoks ht
  obtain ⟨q, st, rfl⟩ := List.exists_cons_of_ne_nil hpath.ne_nil
  have hact := hp.accept_of_valid hlr hpath hv
  rw [← ht] at hact
  refine ⟨_, hsteps.run_eq.trans (run_of_step (step_accept hact) (by simp)), ?_⟩
  simpa using his

/-! ### Reading one token -/

/-- The next token is read in the end, or the input is accepted before that. -/
def Consumes (p : Parser ρ) (c : Configuration) : Prop :=
  ∃ c', p.Steps c c' ∧ (p.step c' = .accept c' ∨ c'.rest = c.rest.tail)

theorem Consumes.of_steps (h : p.Steps c c') (hrest : c'.rest = c.rest) (hc : p.Consumes c') :
    p.Consumes c := by
  obtain ⟨c'', hsteps, hlast⟩ := hc
  exact ⟨c'', h.trans hsteps, hrest ▸ hlast⟩

/-- A token that the rest of a valid item begins with is read. The cases follow the way in which it
begins: with the token itself, inside the production of the next nonterminal, or after that
nonterminal, which is then reduced from nothing. -/
theorem Canonical.consumes_of_begins (hp : p.Canonical start) (hlr : p.isLR1 = true)
    (hlive : p.grammar.Live)
    (h : p.grammar.Begins w b) :
    ∀ {q st γ i d a t rest out ops} {r : Rule ρ}, p.Path (q :: st) γ →
      Valid p.grammar p.rules γ i d a → p.rules[i]? = some r → r.symbols.drop d = w →
      t.type = b → p.Consumes ⟨q :: st, t :: rest, out, ops⟩ := by
  induction h with
  | terminal hs =>
    intro q st γ i d a t rest out ops r hpath hv hr hd ht
    obtain ⟨hnext, -⟩ := Rule.next?_of_drop hd
    obtain ⟨j, hact, -⟩ := hp.shift_of_valid hlr hpath hv hr hnext hs
    rw [← ht] at hact
    exact ⟨_, Steps.head (step_shift hact) .refl, .inr rfl⟩
  | @enter pr body b w hpr _ ih =>
    intro q st γ i d a t rest out ops r hpath hv hr hd ht
    obtain ⟨hnext, hrest⟩ := Rule.next?_of_drop hd
    obtain ⟨k, rk, hk, rfl⟩ := hp.numbered.rule_of_mem hpr.1
    cases (hp.numbered.rewrites hk).2.symm.trans hpr.2
    -- the production needs a lookahead: what follows the nonterminal begins with something
    obtain ⟨e, he⟩ : ∃ e, p.grammar.Begins (r.symbols.drop (d + 1) ++ [a]) e := by
      rcases hp.numbered.nullable_or_begins hlive hr hnext
        (hp.numbered.headsNonterminal _ hpr.1) with
        hnull | ⟨e, he⟩
      · exact ⟨a, hnull.begins_append (.terminal (hv.isTerminal hp.numbered))⟩
      · exact ⟨e, he.append_left⟩
    exact ih hpath (.expand hv hr hnext hk he) hk (by simp) ht
  | @skip pr body w b hpr hnull hw ih =>
    intro q st γ i d a t rest out ops r hpath hv hr hd ht
    obtain ⟨hnext, hrest⟩ := Rule.next?_of_drop hd
    obtain ⟨ps, hspells⟩ := (Grammar.Nullable.cons hpr hnull .nil).spells
    obtain ⟨st', is, ops', hsteps, -, hpath', -, hv'⟩ :=
      hp.steps_of_spells hlr hspells [] rest out ops (v := w) hpath hv hr hd hw.append_left rfl ht
    obtain ⟨q', st', rfl⟩ := List.exists_cons_of_ne_nil hpath'.ne_nil
    exact .of_steps hsteps rfl (ih hpath' hv' hr hrest ht)

/-- A token that can come after a part of a right side is read, unless it comes after all of the
right side: then the parser comes to the end of the right side. -/
theorem Canonical.consumes_or_completes (hp : p.Canonical start) (hlr : p.isLR1 = true)
    (hlive : p.grammar.Live)
    (hv : Valid p.grammar p.rules γ i 0 a) (hr : p.rules[i]? = some r) (hsplit : r.symbols = v ++ w)
    (hpath : p.Path (q :: st) (v.reverse ++ γ)) (hb : p.grammar.Begins (w ++ [a]) t.type) :
    p.Consumes ⟨q :: st, t :: rest, out, ops⟩ ∨
    ∃ q' st' out' ops', p.Steps ⟨q :: st, t :: rest, out, ops⟩ ⟨q' :: st', t :: rest, out', ops'⟩ ∧
    p.Path (q' :: st') (r.symbols.reverse ++ γ) ∧
    Valid p.grammar p.rules (r.symbols.reverse ++ γ) i r.symbols.length t.type ∧ t.type = a := by
  have ha := hv.isTerminal hp.numbered
  have hv1 := hv.advance_append hr (v := v) (w := w) (by rw [List.drop_zero, hsplit])
  have hd : r.symbols.drop (0 + v.length) = w := by rw [hsplit, Nat.zero_add, List.drop_left]
  rcases (Grammar.begins_concat_iff ha hp.numbered.headsNonterminal).mp hb with hw | ⟨hnull, rfl⟩
  · exact .inl (hp.consumes_of_begins hlr hlive hw hpath hv1 hr hd rfl)
  · right
    obtain ⟨ps, hspells⟩ := hnull.spells
    obtain ⟨st', is, ops', hsteps, -, hpath', -, -⟩ :=
      hp.steps_of_spells hlr hspells [] rest out ops (v := [])
      hpath hv1 hr (by rw [hd, List.append_nil]) (.terminal ha) rfl rfl
    obtain ⟨q', st', rfl⟩ := List.exists_cons_of_ne_nil hpath'.ne_nil
    have hv2 := hv.advance_append hr (v := r.symbols) (w := []) (by simp)
    rw [Nat.zero_add] at hv2
    refine ⟨q', st', _, _, hsteps, ?_, hv2, rfl⟩
    rwa [hsplit, List.reverse_append, List.append_assoc]

/-- After an item has been reduced the item that expected it goes on: by induction on the reasons
for the validity of an item, a token that can come after a part of its right side is read. -/
theorem Canonical.consumes_of_valid (hp : p.Canonical start) (hlr : p.isLR1 = true)
    (hlive : p.grammar.Live)
    (h : Valid p.grammar p.rules γ i d a) :
    ∀ {q st v w t rest out ops} {r : Rule ρ}, p.rules[i]? = some r → r.symbols.drop d = v ++ w →
      p.Path (q :: st) (v.reverse ++ γ) → p.grammar.Begins (w ++ [a]) t.type →
      p.Consumes ⟨q :: st, t :: rest, out, ops⟩ := by
  induction h with
  | start =>
    intro q st v w t rest out ops r hr hd hpath hb
    rcases hp.consumes_or_completes hlr hlive .start hr hd hpath hb with hc | ⟨q', st', _, _, hs,
      hpath', hv, -⟩
    · exact hc
    · obtain ⟨r0, hr0, hsym⟩ := hp.numbered.first
      cases hr.symm.trans hr0
      rw [hsym] at hv hpath'
      exact ⟨_, hs, .inl (step_accept (hp.accept_of_valid hlr hpath' hv))⟩
  | @advance γ i d a s r' hv hr' hs ih =>
    intro q st v w t rest out ops r hr hd hpath hb
    cases hr.symm.trans hr'
    exact ih (v := s :: v) hr (by rw [Rule.drop_of_next? hs, hd, List.cons_append])
      (by simpa using hpath) hb
  | @expand γ i d a j b r1 r2 hv hr1 hs hr2 hbegins ih =>
    intro q st v w t rest out ops r hr hd hpath hb
    cases hr2.symm.trans hr
    rcases hp.consumes_or_completes hlr hlive (.expand hv hr1 hs hr2 hbegins) hr hd hpath hb with
      hc | ⟨q', st', _, _, hsteps, hpath', hv', rfl⟩
    · exact hc
    · -- the head takes the place of the right side, and the item that expected it goes on behind it
      have hpop := hpath'.pop
      rw [List.length_reverse] at hpop
      obtain ⟨q0, st0, hst⟩ := List.exists_cons_of_ne_nil hpop.ne_nil
      obtain ⟨k, hpath2, hstep⟩ := hp.steps_reduce hlr hpath' rfl hst
          (hp.expected_ne_zero hr1 hs hr) hr hv'
      refine .of_steps (hsteps.trans (Steps.head (hstep rest _ _) .refl)) rfl ?_
      exact ih (v := [r2.production.head]) hr1 (Rule.drop_of_next? hs) hpath2 hbegins

/-- If there is an action for the next token, the token is read in the end or the input is
accepted. -/
theorem Canonical.consumes_of_action (hp : p.Canonical start) (hlr : p.isLR1 = true)
    (hlive : p.grammar.Live) (hpath : p.Path (q :: st) γ) (ha : p.action? q t.type = some act) :
    p.Consumes ⟨q :: st, t :: rest, out, ops⟩ := by
  cases act with
  | shift j => exact ⟨_, Steps.head (step_shift ha) .refl, .inr rfl⟩
  | accept => exact ⟨_, .refl, .inl (step_accept ha)⟩
  | reduce i =>
    obtain ⟨-, r, hr, hv⟩ := hp.reduce hpath ha
    obtain ⟨γ', rfl, -, hv0⟩ := hv.split hr
    rw [List.take_length] at hpath
    exact hp.consumes_of_valid hlr hlive hv0 (v := r.symbols) (w := []) hr (by simp) hpath
      (.terminal (hv.isTerminal hp.numbered))

end AutoCool.LR1.Parser
