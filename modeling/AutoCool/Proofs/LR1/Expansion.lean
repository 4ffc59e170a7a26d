import AutoCool.LR1.Expansion
import AutoCool.Proofs.LR1.CanonicalItems

/-!
# Closing items one by one gives the closure

What an item brings in can always be told, and the empty word is never ahead of it (`expand_ok`).
There are finitely many items that can be brought in, so the rounds end. The last set is closed
under what its items bring in, and all in it is due to the given items (`Closing.ends`). However
many items it has for one place, with whatever lookaheads, together they have those of the closure
(`close_eq`).
-/

namespace AutoCool

variable {ρ : Type}

theorem Grammar.Nullable.isNonterminal {g : Grammar ρ} (hheads : g.HeadsNonterminal)
    {w : List Symbol} (h : g.Nullable w) : ∀ s ∈ w, s.isNonterminal = true := by
  induction h with
  | nil => simp
  | cons hp _ _ _ ih =>
    exact fun s hs => (List.mem_cons.mp hs).elim (fun he => he ▸ hheads _ hp.1) (ih s)

namespace MarkedSet

variable {α : Type} [DecidableEq α] {sets : List (MarkedSet α)} {s : MarkedSet α} {v : α}

theorem mem_foldl_join : v ∈ (sets.foldl join s).items ↔ v ∈ s.items ∨ ∃ f ∈ sets, v ∈ f.items := by
  induction sets generalizing s with
  | nil => simp
  | cons f sets ih => simp [ih, or_assoc]

theorem epsilon_foldl_join (h : ∀ f ∈ sets, f.epsilon = false) :
    (sets.foldl join s).epsilon = s.epsilon := by
  induction sets generalizing s with
  | nil => rfl
  | cons f sets ih =>
    obtain ⟨hf, h⟩ := List.forall_mem_cons.mp h
    rw [List.foldl_cons, ih h, epsilon_join, hf, Bool.or_false]

end MarkedSet

theorem exists_mapM {α β : Type} {f : α → Option β} {P : α → β → Prop} {l : List α}
    (h : ∀ x ∈ l, ∃ y, f x = some y ∧ P x y) :
    ∃ ys, l.mapM f = some ys ∧ ∀ y, y ∈ ys ↔ ∃ x ∈ l, f x = some y ∧ P x y := by
  induction l with
  | nil => exact ⟨[], rfl, by simp⟩
  | cons x l ih =>
    obtain ⟨⟨y, hy, hP⟩, h⟩ := List.forall_mem_cons.mp h
    obtain ⟨ys, hys, hmem⟩ := ih h
    refine ⟨y :: ys, by simp [hy, hys], fun z => ?_⟩
    rw [List.mem_cons, hmem, List.exists_mem_cons_iff, hy, Option.some.injEq]
    refine or_congr_left ⟨fun hz => ⟨hz.symm, hz ▸ hP⟩, fun hz => hz.1.symm⟩

namespace LR1

variable {g : Grammar ρ} {rules : Array (Rule ρ)} {t : FirstTable ρ} {items : List Item}
  {x y : Item}

/-- An item of the grammar stands at a place of a right side, before terminals or the end mark. -/
def Item.Fits (g : Grammar ρ) (rules : Array (Rule ρ)) (x : Item) : Prop :=
  (∃ r : Rule ρ, rules[x.rule]? = some r ∧ x.dot ≤ r.symbols.length) ∧
    ∀ n, x.ahead.contains n = true → ∃ a ∈ g.terminals ++ [g.endMark], a.id = n

/-- What can come first in a phrase before a lookahead, by the FIRST sets: never the empty word. -/
theorem phrase_ahead (hg : g.WF) (hsound : t.Sound g) (hclosed : t.Closed g)
    (hget : ∀ s ∈ g.symbols, ∃ f, t.get? s = some f) {w : List Symbol} {a : Symbol}
    (hw : ∀ s ∈ w, s ∈ g.terminals ++ g.nonterminals) (ha : a ∈ g.terminals ++ [g.endMark]) :
    ∃ f, t.phrase (w ++ [a]) = .ok f ∧ f.epsilon = false ∧ ∀ b, b ∈ f.items ↔ g.Ahead w a b := by
  obtain ⟨f, hf⟩ : ∃ f, t.phrase (w ++ [a]) = .ok f := t.phrase_ok fun s hs => by
    rcases List.mem_append.mp hs with hs | hs
    · exact hget s (.tail _ (hw s hs))
    · exact hget s (List.mem_singleton.mp hs ▸ Grammar.mem_symbols_of_ahead ha)
  refine ⟨f, hf, ?_, fun b => ⟨(hsound.phrase hf).begins b, fun hb => hclosed.mem hb hf⟩⟩
  by_contra he
  have hnull := (hsound.phrase hf).nullable (by simpa using he)
  have hnt := hnull.isNonterminal hg.headsNonterminal a (by simp)
  simpa [Symbol.isTerminal, hnt] using hg.isTerminal_of_ahead ha

/-! ### What an item brings in -/

/-- The second item begins a production of the nonterminal that the first one expects. -/
def Brings (rules : Array (Rule ρ)) (x y : Item) : Prop :=
  ∃ (r r' : Rule ρ) (e : Spread), rules[x.rule]? = some r ∧
    r.next? x.dot = some r'.production.head ∧
    r.spread? x.dot = some e ∧ rules[y.rule]? = some r' ∧ y = ⟨y.rule, 0, e.passed x.ahead⟩

section

variable (h : Ruled g rules) (hsound : t.Sound g) (hclosed : t.Closed g)
  (hget : ∀ s ∈ g.symbols, ∃ f, t.get? s = some f)

include h

theorem Brings.fits (hb : Brings rules x y) (hx : x.Fits g rules) : y.Fits g rules := by
  obtain ⟨r, r', e, hr, -, he, hr', hy⟩ := hb
  rw [hy]
  refine ⟨⟨r', hr', Nat.zero_le _⟩, fun m hm => ?_⟩
  obtain ⟨-, -, -, hpassed⟩ := (h.exact []).spread_passed hr he
  obtain ⟨n, hn, ⟨b, hb, rfl⟩ | ⟨-, rfl⟩⟩ := (hpassed _ m).mp hm
  · exact ⟨b, h.mem_aheads_of_begins hr hb, rfl⟩
  · exact hx.2 m hn

include hsound hclosed hget

/-- What comes first before one of the lookaheads is what the place passes on of them all. -/
theorem previews_passed {r : Rule ρ} {e : Spread} (hr : rules[x.rule]? = some r)
    (he : r.spread? x.dot = some e) (hx : x.Fits g rules) :
    ∃ sets, (previews g r x).mapM (fun w => (t.phrase w).toOption) = some sets ∧
      (sets.foldl MarkedSet.join {}).epsilon = false ∧
      BitSet.ofList ((sets.foldl MarkedSet.join {}).items.map (·.id)) = e.passed x.ahead := by
  obtain ⟨-, -, -, hpassed⟩ := (h.exact []).spread_passed hr he
  have hrest : ∀ s ∈ r.symbols.drop (x.dot + 1), s ∈ g.terminals ++ g.nonterminals := fun s hs =>
    h.plain.mem_of_rewrites (h.rewrites hr) s (List.mem_of_mem_drop hs)
  have hphrase := fun a => phrase_ahead (a := a) h.wf hsound hclosed hget hrest
  obtain ⟨sets, hsets, hmem⟩ := exists_mapM (f := fun w => (t.phrase w).toOption)
    (P := fun w f => f.epsilon = false ∧ ∀ b, b ∈ f.items ↔ g.Begins w b) fun w hw => by
      obtain ⟨a, ha, rfl⟩ := List.mem_map.mp hw
      obtain ⟨f, hf, hfirst⟩ := hphrase a (List.mem_of_mem_filter ha)
      exact ⟨f, by rw [hf]; rfl, hfirst⟩
  refine ⟨sets, hsets, MarkedSet.epsilon_foldl_join fun f hf => ?_, BitSet.ext fun m => ?_⟩
  · obtain ⟨w, -, -, hfirst, -⟩ := (hmem f).mp hf
    exact hfirst
  rw [Bool.eq_iff_iff, BitSet.contains_ofList, decide_eq_true_iff, List.mem_map, hpassed]
  constructor
  · rintro ⟨b, hb, rfl⟩
    obtain ⟨f, hf, hb⟩ := (MarkedSet.mem_foldl_join.mp hb).resolve_left (by simp)
    obtain ⟨w, hw, -, -, hfirst⟩ := (hmem f).mp hf
    obtain ⟨a, ha, rfl⟩ := List.mem_map.mp hw
    obtain ⟨ha, hcontains⟩ := List.mem_filter.mp ha
    refine ⟨a.id, hcontains, ?_⟩
    have hb := (hfirst b).mp hb
    rw [Grammar.begins_concat_iff (h.wf.isTerminal_of_ahead ha) h.wf.headsNonterminal] at hb
    exact hb.imp (fun hb => ⟨b, hb, rfl⟩) (And.imp_right (congrArg Symbol.id))
  · rintro ⟨n, hn, hm⟩
    obtain ⟨a, ha, rfl⟩ := hx.2 n hn
    have hw : r.symbols.drop (x.dot + 1) ++ [a] ∈ previews g r x :=
      List.mem_map.mpr ⟨a, List.mem_filter.mpr ⟨ha, hn⟩, rfl⟩
    obtain ⟨f, hf, hfirst⟩ := hphrase a ha
    have hin : f ∈ sets := (hmem f).mpr ⟨_, hw, by rw [hf]; rfl, hfirst⟩
    obtain ⟨b, hb, rfl⟩ : ∃ b, g.Ahead (r.symbols.drop (x.dot + 1)) a b ∧ b.id = m := by
      rcases hm with ⟨b, hb, rfl⟩ | ⟨hnull, rfl⟩
      · exact ⟨b, hb.append_left, rfl⟩
      · exact ⟨a, hnull.begins_append (.terminal (h.wf.isTerminal_of_ahead ha)), rfl⟩
    exact ⟨b, MarkedSet.mem_foldl_join.mpr (.inr ⟨f, hin, (hfirst.2 b).mpr hb⟩), rfl⟩

theorem expand_ok (hx : x.Fits g rules) :
    ∃ ys, expand g t rules x = some ys ∧ ∀ y, y ∈ ys ↔ Brings rules x y := by
  obtain ⟨r, hr, -⟩ := hx.1
  have hnone : (∀ s, r.next? x.dot = some s → s.isNonterminal = false) →
      ∀ y, ¬ Brings rules x y := by
    rintro hs y ⟨r1, r', e, hr1, hs1, -, hr', -⟩
    cases hr.symm.trans hr1
    exact Bool.false_ne_true ((hs _ hs1).symm.trans ((h.exact []).headsNonterminal hr'))
  simp only [expand, hr]
  cases hs : r.next? x.dot with
  | none => exact ⟨[], rfl, by simpa using hnone (by simp [hs])⟩
  | some s =>
    by_cases hnt : s.isNonterminal = true
    · obtain ⟨e, he, -⟩ := h.spreads.spread hr hs hnt
      obtain ⟨sets, hsets, hepsilon, hahead⟩ := previews_passed h hsound hclosed hget hr he hx
      simp only [hnt, if_true, hsets, Option.bind_eq_bind, Option.bind_some, hepsilon, hahead]
      refine ⟨_, rfl, fun y => ?_⟩
      simp only [List.mem_map, List.mem_filter, Prod.exists, List.mem_zipIdx_iff_getElem?,
        Array.getElem?_toList, beq_iff_eq]
      constructor
      · rintro ⟨r', j, ⟨hr', rfl⟩, rfl⟩
        exact ⟨r, r', e, hr, hs, he, hr', rfl⟩
      · rintro ⟨r1, r', e1, hr1, hs1, he1, hr', hy⟩
        cases hr.symm.trans hr1
        cases he.symm.trans he1
        exact ⟨r', y.rule, ⟨hr', Option.some.inj (hs1.symm.trans hs)⟩, hy.symm⟩
    · simp only [if_neg hnt]
      have hy := hnone fun s1 hs1 => by
        cases hs.symm.trans hs1
        simpa using hnt
      exact ⟨[], rfl, by simpa using hy⟩

end

/-! ### The rounds -/

/-- An item that is given, or brought in by one that is due. -/
inductive Due (rules : Array (Rule ρ)) (items : List Item) : Item → Prop
  | given {x : Item} : x ∈ items → Due rules items x
  | brought {x y : Item} : Due rules items x → Brings rules x y → Due rules items y

/-- The given items, and all that begin a production of the grammar. -/
def candidates (g : Grammar ρ) (rules : Array (Rule ρ)) (items : List Item) : List Item :=
  items ++ (List.range rules.size ×ˢ List.range (2 ^ g.nextId)).map fun c => ⟨c.1, 0, ⟨c.2⟩⟩

/-- A set of items on the way to the closure of the given ones. -/
structure Closing (rules : Array (Rule ρ)) (items : List Item) (set : MarkedSet Item) : Prop where
  nodup : set.items.Nodup
  given : ∀ x ∈ items, x ∈ set.items
  due : ∀ x ∈ set.items, Due rules items x

theorem Closing.first (rules : Array (Rule ρ)) (items : List Item) :
    Closing rules items (MarkedSet.ofList items) where
  nodup := MarkedSet.nodup_insertAll List.nodup_nil
  given _ hx := MarkedSet.mem_insertAll.mpr (.inr hx)
  due _ hx := .given ((MarkedSet.mem_insertAll.mp hx).resolve_left (by simp))

section

variable (h : Ruled g rules)

include h

theorem has_due_iff {set : List Item} (hset : ∀ x, x ∈ set ↔ Due rules items x) {i d : Nat} :
    Has set i d n ↔ Closes g rules (Has items) i d n := by
  constructor
  · rintro ⟨x, hx, rfl, rfl, hn⟩
    rw [hset] at hx
    induction hx generalizing n with
    | given hx => exact .given ⟨_, hx, rfl, rfl, hn⟩
    | brought _ hb ih =>
      obtain ⟨r, r', e, hr, hs, he, hr', hy⟩ := hb
      obtain ⟨-, -, -, hpassed⟩ := (h.exact []).spread_passed hr he
      rw [hy] at hn ⊢
      obtain ⟨m, hm, hfollows⟩ := (hpassed _ n).mp hn
      exact .expand (ih hm) hr hs hr' hfollows
  · intro hc
    induction hc with
    | given hn =>
      obtain ⟨x, hx, hi, hd, hn⟩ := hn
      exact ⟨x, (hset x).mpr (.given hx), hi, hd, hn⟩
    | expand _ hr hs hr' hfollows ih =>
      obtain ⟨x, hx, rfl, rfl, hn⟩ := ih
      obtain ⟨e, he, -⟩ := h.spreads.spread hr hs ((h.exact []).headsNonterminal hr')
      obtain ⟨-, -, -, hpassed⟩ := (h.exact []).spread_passed hr he
      exact ⟨⟨_, 0, e.passed x.ahead⟩,
        (hset _).mpr (((hset x).mp hx).brought ⟨_, _, e, hr, hs, he, hr', rfl⟩), rfl, rfl,
        (hpassed _ _).mpr ⟨_, hn, hfollows⟩⟩

theorem stands_due_iff {set : List Item} (hset : ∀ x, x ∈ set ↔ Due rules items x) {i d : Nat} :
    Stands set i d ↔ Opens rules (Stands items) i d := by
  constructor
  · rintro ⟨x, hx, rfl, rfl⟩
    rw [hset] at hx
    induction hx with
    | given hx => exact .given ⟨_, hx, rfl, rfl⟩
    | brought _ hb ih =>
      obtain ⟨r, r', e, hr, hs, -, hr', hy⟩ := hb
      rw [hy]
      exact .expand ih hr hs hr'
  · intro ho
    induction ho with
    | given hx =>
      obtain ⟨x, hx, hi, hd⟩ := hx
      exact ⟨x, (hset x).mpr (.given hx), hi, hd⟩
    | expand _ hr hs hr' ih =>
      obtain ⟨x, hx, rfl, rfl⟩ := ih
      obtain ⟨e, he, -⟩ := h.spreads.spread hr hs ((h.exact []).headsNonterminal hr')
      exact ⟨⟨_, 0, e.passed x.ahead⟩,
        (hset _).mpr (((hset x).mp hx).brought ⟨_, _, e, hr, hs, he, hr', rfl⟩), rfl, rfl⟩

variable (hitems : ∀ x ∈ items, x.Fits g rules)

include hitems

theorem lt_of_has {i d : Nat} (hn : Has items i d n) : n < g.nextId := by
  obtain ⟨x, hx, -, -, hn⟩ := hn
  obtain ⟨a, ha, rfl⟩ := (hitems x hx).2 n hn
  exact h.wf.id_lt a (Grammar.mem_symbols_of_ahead ha)

omit h in
theorem place_of_stands {i d : Nat} (hs : Stands items i d) :
    ∃ r : Rule ρ, rules[i]? = some r ∧ d ≤ r.symbols.length := by
  obtain ⟨x, hx, rfl, rfl⟩ := hs
  exact (hitems x hx).1

theorem Due.fits (hx : Due rules items x) : x.Fits g rules := by
  induction hx with
  | given hx => exact hitems _ hx
  | brought _ hb ih => exact hb.fits h ih

theorem Due.mem_candidates (hx : Due rules items x) : x ∈ candidates g rules items := by
  cases hx with
  | given hx => exact List.mem_append_left _ hx
  | brought hx hb =>
    obtain ⟨⟨r, hr, -⟩, hahead⟩ := hb.fits h (hx.fits h hitems)
    obtain ⟨_, _, _, _, _, _, _, hx'⟩ := hb
    have hdot : x.dot = 0 := by rw [hx']
    refine List.mem_append_right _ (List.mem_map.mpr ⟨(x.rule, x.ahead.bits), ?_, by rw [← hdot]⟩)
    refine List.mem_product.mpr ⟨List.mem_range.mpr (Array.getElem?_eq_some_iff.mp hr).1, ?_⟩
    -- every lookahead has a number, so the set of them is bounded
    refine List.mem_range.mpr (Nat.lt_pow_two_of_testBit _ fun n hle => ?_)
    by_contra hn
    obtain ⟨a, ha, rfl⟩ := hahead n (by simpa [BitSet.contains] using hn)
    exact absurd (h.wf.id_lt a (Grammar.mem_symbols_of_ahead ha)) (Nat.not_lt.mpr hle)

variable (hsound : t.Sound g) (hclosed : t.Closed g)
  (hget : ∀ s ∈ g.symbols, ∃ f, t.get? s = some f) {set : MarkedSet Item}

include hsound hclosed hget

theorem Closing.expands (hc : Closing rules items set) :
    ∃ new, set.items.mapM (expand g t rules) = some new ∧
    ∀ y, y ∈ (set.absorb (.ofList new.flatten)).items ↔
      y ∈ set.items ∨ ∃ x ∈ set.items, Brings rules x y := by
  have hok : ∀ x ∈ set.items, ∃ ys, expand g t rules x = some ys ∧ ∀ y, y ∈ ys ↔ Brings rules x y :=
    fun x hx => expand_ok h hsound hclosed hget ((hc.due x hx).fits h hitems)
  obtain ⟨new, hnew, hmem⟩ := exists_mapM hok
  refine ⟨new, hnew, fun y => MarkedSet.mem_insertAll.trans (or_congr_right ?_)⟩
  simp only [MarkedSet.ofList, MarkedSet.mem_insertAll, List.not_mem_nil, false_or,
    List.mem_flatten, hmem]
  constructor
  · rintro ⟨ys, ⟨x, hx, -, hys⟩, hy⟩
    exact ⟨x, hx, (hys y).mp hy⟩
  · rintro ⟨x, hx, hb⟩
    obtain ⟨ys, hys, hiff⟩ := hok x hx
    exact ⟨ys, ⟨x, hx, hys, hiff⟩, (hiff y).mpr hb⟩

/-- A round adds what the items bring in. It is the last when it adds nothing. -/
theorem Closing.step (hc : Closing rules items set) : ∃ set', Closing rules items set' ∧
    (set' = set ∧ (∀ x ∈ set.items, ∀ y, Brings rules x y → y ∈ set.items) ∧
        closeStep g t rules set = .inr (some (Item.sort set.items)) ∨
      set.items.length < set'.items.length ∧ closeStep g t rules set = .inl set') := by
  obtain ⟨new, hnew, hmem⟩ := hc.expands h hitems hsound hclosed hget
  refine ⟨set.absorb (.ofList new.flatten), ⟨MarkedSet.nodup_insertAll hc.nodup,
    fun x hx => (hmem x).mpr (.inl (hc.given x hx)), fun y hy => ?_⟩, ?_⟩
  · rcases (hmem y).mp hy with hy | ⟨x, hx, hb⟩
    · exact hc.due y hy
    · exact (hc.due x hx).brought hb
  have hepsilon : (set.absorb (.ofList new.flatten)).epsilon = set.epsilon :=
    MarkedSet.epsilon_insertAll ..
  rcases MarkedSet.insertAll_eq_or set (MarkedSet.ofList new.flatten).items with heq | hlt
  · refine .inl ⟨heq, fun x hx y hb => ?_, ?_⟩
    · have := (hmem y).mpr (.inr ⟨x, hx, hb⟩)
      rwa [MarkedSet.absorb, heq] at this
    · simp only [closeStep, hnew, MarkedSet.absorb, heq]
      simp [MarkedSet.grew]
  · refine .inr ⟨hlt, ?_⟩
    simp only [closeStep, hnew]
    exact if_pos (by simpa [MarkedSet.grew, hepsilon, MarkedSet.absorb] using hlt.ne)

/-- The rounds end with the items that are due. -/
theorem Closing.ends (hc : Closing rules items set) :
    ∃ last : MarkedSet Item, (∀ x, x ∈ last.items ↔ Due rules items x) ∧
      Iteration.Ends (closeStep g t rules) set (some (Item.sort last.items)) := by
  -- a round that is not the last makes the set longer, and it has room for the candidates only
  induction hk : (candidates g rules items).length - set.items.length using Nat.strong_induction_on
    generalizing set with
  | _ k ih =>
    obtain ⟨set', hc', ⟨rfl, hbrings, hstep⟩ | ⟨hlt, hstep⟩⟩ := hc.step h hitems hsound hclosed hget
    · refine ⟨set', fun x => ⟨hc.due x, fun hx => ?_⟩, .done hstep⟩
      induction hx with
      | given hx => exact hc.given _ hx
      | brought _ hb ih => exact hbrings _ ih _ hb
    · have hle := (List.subperm_of_subset hc'.nodup fun x hx =>
        (hc'.due x hx).mem_candidates h hitems).length_le
      obtain ⟨last, hlast, hends⟩ := ih _ (by omega) hc' rfl
      exact ⟨last, hlast, .step hstep hends⟩

/-- Closing items one by one ends, without a failure, with the closure. -/
theorem close_eq :
    close g t rules items = some (some (closure rules (edgesOf rules) g.nextId items)) := by
  obtain ⟨last, hlast, hends⟩ := (Closing.first rules items).ends h hitems hsound hclosed hget
  have hexact := h.exact []
  have hset := hexact.itemSet_closure (place_of_stands hitems) (lt_of_has h hitems)
  have hhas : ∀ i d n, Has (Item.sort last.items) i d n ↔
      Has (closure rules (edgesOf rules) g.nextId items) i d n := fun i d n =>
    Item.has_sort.trans ((has_due_iff h hlast).trans (hexact.has_closure (lt_of_has h hitems)).symm)
  have hstands : ∀ i d, Stands (Item.sort last.items) i d ↔
      Stands (closure rules (edgesOf rules) g.nextId items) i d := fun i d =>
    Item.stands_sort.trans
      ((stands_due_iff h hlast).trans (hexact.stands_closure_iff (lt_of_has h hitems)).symm)
  have hsort : Item.sort last.items = closure rules (edgesOf rules) g.nextId items :=
    Setting.ItemSet.ext ⟨Item.pairwise_sort _, fun hs => hset.place ((hstands _ _).mp hs),
      fun hn => hset.ahead ((hhas _ _ _).mp hn)⟩ hset hstands hhas
  exact Iteration.untilDone_eq_some.mpr (hsort ▸ hends)

end

end LR1

end AutoCool
