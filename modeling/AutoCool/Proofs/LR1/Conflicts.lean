import AutoCool.Proofs.LR1.Construction

/-!
# Tables without conflicts

Every state of a parser lies on a path, so its items are the valid ones after the symbols of some
path. If no two of them ask for different things with the same symbol ahead, the tables have no
conflicts (`Parser.Constructed.isLR1`).
-/

namespace AutoCool.LR1

variable {ρ : Type}

/-- No two items that are valid after the same symbols ask for different things: where one is
complete before a symbol, no other one is, and none expects the symbol. -/
structure Decisive (g : Grammar ρ) (rules : Array (Rule ρ)) : Prop where
  shift : ∀ {γ i d j s a} {r r' : Rule ρ}, Valid g rules γ i d a → rules[i]? = some r →
    r.next? d = some s →
    s.isTerminal = true → rules[j]? = some r' → ¬ Valid g rules γ j r'.symbols.length s
  reduce : ∀ {γ i j s} {r r' : Rule ρ}, rules[i]? = some r → rules[j]? = some r' →
    Valid g rules γ i r.symbols.length s → Valid g rules γ j r'.symbols.length s → i = j

namespace Parser

variable {p : Parser ρ} {start : Symbol} {q : State (List Item)}

theorem Constructed.path_of_reached (h : p.Constructed start)
    (hitems : p.setting.Reached [p.firstItem] items) :
    ∃ k st γ q, p.Path (k :: st) γ ∧ p.automaton.states[k]? = some q ∧ q.label = items := by
  induction hitems with
  | start =>
    obtain ⟨q, hq, hlabel⟩ := h.traces.start
    rw [h.start_eq] at hq
    exact ⟨0, [], [], q, .start, hq, hlabel⟩
  | move _ hk ih =>
    obtain ⟨k, st, γ, q, hpath, hq, rfl⟩ := ih
    have hs := Setting.occurs_of_kernel hk
    obtain ⟨j, q', hj, hq', hlabel⟩ := h.traces.move h.named hq hs hk
    exact ⟨j, k :: st, _, q', hpath.move hs ((h.move?_iff h.named hq hs).mpr ⟨hk, hj⟩), hq', hlabel⟩

theorem Constructed.exists_labels (h : p.Constructed start) {k : Nat}
    (hq : p.automaton.states[k]? = some q) : ∃ γ, Framed.Labels p γ q := by
  obtain ⟨k', st, γ, q', hpath, hq', hlabel⟩ := h.path_of_reached (h.traces.reached hq)
  obtain ⟨q1, hq1, hlabels⟩ := h.label hpath
  cases hq'.symm.trans hq1
  exact ⟨γ, ⟨by rw [← hlabel]; exact hlabels.has, by rw [← hlabel]; exact hlabels.first,
    by rw [← hlabel]; exact hlabels.inhabited, by rw [← hlabel]; exact hlabels.ahead⟩⟩

theorem Constructed.complete_of_asks (h : p.Constructed start) {k : Nat}
    (hq : p.automaton.states[k]? = some q)
    (hlabels : Framed.Labels p γ q) (hx : x ∈ q.label) (hask : AsksAction p.grammar p.rules q x s a)
      (ha : ∀ j, a ≠ .shift j) :
    ∃ r : Rule ρ, p.rules[x.rule]? = some r ∧ Valid p.grammar p.rules γ x.rule r.symbols.length s ∧
      a = if x.rule = 0 then .accept else .reduce x.rule := by
  cases hask with
  | shift _ _ _ hj => exact absurd rfl (ha _)
  | @accept r hr hend hstart =>
    have hzero := (h.head_ne_start hr).mp hstart
    have hhas := hlabels.first ⟨x, hx, hzero, rfl⟩
    refine ⟨r, hr, ?_, by rw [if_pos hzero]⟩
    rw [← h.dot_eq hq hx hr hend, hzero]
    exact h.valid_of_has hlabels (.head _) hhas
  | @reduce r s hr hend hstart hmem hahead =>
    have hne : x.rule ≠ 0 := fun he => hstart ((h.head_ne_start hr).mpr he)
    refine ⟨r, hr, ?_, by rw [if_neg hne]⟩
    rw [← h.dot_eq hq hx hr hend]
    exact h.valid_of_has hlabels (Grammar.mem_symbols_of_ahead hmem) ⟨x, hx, rfl, rfl, hahead⟩

theorem Constructed.asks_shift (h : p.Constructed start) (hlive : p.grammar.Live)
    (hd : Decisive p.grammar p.rules) {k j : Nat} (hq : p.automaton.states[k]? = some q)
    (hx : x ∈ q.label) (hy : y ∈ q.label) (hask : AsksAction p.grammar p.rules q x s (.shift j))
    (hask' : AsksAction p.grammar p.rules q y s a) : a = .shift j := by
  cases hask with
  | shift hr hs hterm hj =>
    by_cases ha : ∀ j, a ≠ .shift j
    · obtain ⟨γ, hlabels⟩ := h.exists_labels hq
      obtain ⟨n, hn⟩ := hlabels.ahead hlive ⟨x, hx, rfl, rfl⟩
      obtain ⟨b, hb, -⟩ := hlabels.has.mp hn
      obtain ⟨r', hr', hv', -⟩ := h.complete_of_asks hq hlabels hy hask' ha
      exact absurd hv' (hd.shift hb hr hs hterm hr')
    · obtain ⟨j', rfl⟩ : ∃ j', a = .shift j' := by simpa using ha
      cases hask' with
      | shift _ _ _ hj' => rw [Except.ok.inj (hj.symm.trans hj')]

theorem Constructed.isLR1 (h : p.Constructed start) (hlive : p.grammar.Live)
    (hd : Decisive p.grammar p.rules) : p.isLR1 = true := by
  refine Array.all_eq_true.mpr fun k hk => ?_
  obtain ⟨q, hq, hfor⟩ := h.for_of_rows (Array.getElem?_eq_getElem hk)
  refine hfor.single.mpr ⟨fun s a a' ha ha' => ?_, fun s j j' hj hj' => ?_⟩
  · obtain ⟨x, hx, hask⟩ := hfor.action.mp ha
    obtain ⟨y, hy, hask'⟩ := hfor.action.mp ha'
    by_cases hshift : ∃ j, a = .shift j
    · obtain ⟨j, rfl⟩ := hshift
      exact (h.asks_shift hlive hd hq hx hy hask hask').symm
    by_cases hshift' : ∃ j, a' = .shift j
    · obtain ⟨j, rfl⟩ := hshift'
      exact h.asks_shift hlive hd hq hy hx hask' hask
    -- two complete items before the same symbol are the same
    obtain ⟨γ, hlabels⟩ := h.exists_labels hq
    obtain ⟨r, hr, hv, rfl⟩ := h.complete_of_asks hq hlabels hx hask (by simpa using hshift)
    obtain ⟨r', hr', hv', rfl⟩ := h.complete_of_asks hq hlabels hy hask' (by simpa using hshift')
    rw [hd.reduce hr hr' hv hv']
  · obtain ⟨x, -, ⟨_, _, _, hdest⟩⟩ := hfor.goto.mp hj
    obtain ⟨y, -, ⟨_, _, _, hdest'⟩⟩ := hfor.goto.mp hj'
    exact Except.ok.inj (hdest.symm.trans hdest')

end Parser

end AutoCool.LR1
