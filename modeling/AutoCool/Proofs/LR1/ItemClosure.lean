import AutoCool.Proofs.LR1.Evaluate
import AutoCool.Proofs.LR1.Expansion

/-!
# The closure of item sets

To close any items of a grammar one by one takes finitely many rounds and does not fail. The items
found stand for the least set of items with a single lookahead that is closed in the sense of the
textbook (`closure_exact`).
-/

namespace AutoCool

variable {ρ : Type}

namespace LR1

variable {g : Grammar ρ} {rules : Array (Rule ρ)} {items : List Item} {i d n : Nat}

/-! ### Closing twice -/

theorem Opens.trans (h : Opens rules Q i d) (hQ : ∀ {i d}, Q i d → Opens rules P i d) :
    Opens rules P i d := by
  induction h with
  | given h => exact hQ h
  | expand _ hr hs hr' ih => exact .expand ih hr hs hr'

theorem Closes.trans (h : Closes g rules Q i d n)
    (hQ : ∀ {i d n}, Q i d n → Closes g rules P i d n) : Closes g rules P i d n := by
  induction h with
  | given h => exact hQ h
  | expand _ hr hs hr' hf ih => exact .expand ih hr hs hr' hf

theorem Setting.Exact.closure_closure {t : Setting ρ} (ht : t.Exact g)
    (hplace : ∀ {i d}, Stands items i d → ∃ r : Rule ρ, t.rules[i]? = some r ∧ d ≤ r.symbols.length)
    (hahead : ∀ {i d n}, Has items i d n → n < t.size) :
    closure t.rules t.edges t.size (closure t.rules t.edges t.size items) =
      closure t.rules t.edges t.size items := by
  have hset := ht.itemSet_closure hplace hahead
  refine (ht.itemSet_closure hset.place hset.ahead).ext hset (fun i d => ?_) fun i d n => ?_
  · rw [ht.stands_closure_iff hset.ahead]
    exact ⟨fun h => (ht.stands_closure_iff hahead).mpr (h.trans (ht.stands_closure_iff hahead).mp),
      .given⟩
  · rw [ht.has_closure hset.ahead]
    exact ⟨fun h => (ht.has_closure hahead).mpr (h.trans (ht.has_closure hahead).mp), .given⟩

theorem Closes.ahead (h : Ruled g rules) (hitems : ∀ x ∈ items, x.Fits g rules)
    (hc : Closes g rules (Has items) i d n) : ∃ a ∈ g.terminals ++ [g.endMark], a.id = n := by
  induction hc with
  | given hn =>
    obtain ⟨x, hx, -, -, hn⟩ := hn
    exact (hitems x hx).2 _ hn
  | expand _ hr _ _ hfollows ih =>
    rcases hfollows with ⟨b, hb, rfl⟩ | ⟨-, rfl⟩
    · exact ⟨b, h.mem_aheads_of_begins hr hb, rfl⟩
    · exact ih

theorem fits_closure (h : Ruled g rules) (hitems : ∀ x ∈ items, x.Fits g rules) :
    ∀ x ∈ closure rules (edgesOf rules) g.nextId items, x.Fits g rules := by
  have hexact := h.exact []
  have hset := hexact.itemSet_closure (place_of_stands hitems) (lt_of_has h hitems)
  refine fun x hx => ⟨hset.place ⟨x, hx, rfl, rfl⟩, fun n hn => ?_⟩
  exact ((hexact.has_closure (lt_of_has h hitems)).mp ⟨x, hx, rfl, rfl, hn⟩).ahead h hitems

/-! ### Items with a single lookahead -/

/-- The items with a single lookahead that some items stand for. -/
def singles (g : Grammar ρ) (rules : Array (Rule ρ)) (items : List Item) : Set (Dotted ρ Symbol) :=
  {x | x.ahead ∈ g.terminals ++ [g.endMark] ∧
    ∃ (i : Nat) (r : Rule ρ), rules[i]? = some r ∧ r.production = x.production ∧
      Has items i x.dot x.ahead.id}

theorem singles_closure (h : Ruled g rules) (hitems : ∀ x ∈ items, x.Fits g rules) :
    singles g rules (closure rules (edgesOf rules) g.nextId items) =
      Dotted.closureOf g g.Ahead (singles g rules items) := by
  let p : Parser ρ :=
    { grammar := g, rules, automaton := { states := #[], start := 0 }, rows := #[] }
  have hsight : p.Sighted items := by
    rintro i d n ⟨x, hx, -, -, hn⟩
    exact (hitems x hx).2 n hn
  have hseen : ∀ items, singles g rules items = Dotted.seen (p.denote items) := by
    intro items
    ext x
    constructor
    · rintro ⟨ha, i, r, hr, hprod, hn⟩
      refine ⟨i, r, hr, hprod, hn.stands, fun a he => ?_⟩
      obtain rfl := Option.some.inj he
      exact ⟨ha, hn⟩
    · rintro ⟨i, r, hr, hprod, -, hahead⟩
      obtain ⟨ha, hn⟩ := hahead x.ahead rfl
      exact ⟨ha, i, r, hr, hprod, hn⟩
  rw [hseen, hseen, Parser.denote_closure (p := p) h hsight, Dotted.seen_closureOf]

/-- To close any items of the grammar one by one ends, and neither lacks a FIRST set nor finds the
empty word ahead of an item. What it gives is the closure that the automaton is built with. It has
one item at most for a production and a place, stands for the least closed set of items with a
single lookahead, and is its own closure. -/
theorem closure_exact (hg : g.Built) (hplain : g.Plain) :
    ∃ firsts rules, g.firsts = .ok firsts ∧ rulesOf g = .ok rules ∧
      ∀ items, (∀ x ∈ items, x.Fits g rules) →
        ∃ closed, close g (withEnd g firsts) rules items = some (some closed) ∧
          closure rules (edgesOf rules) g.nextId items = closed ∧
          closureFault? rules (edgesOf rules) g.nextId items = none ∧
          (∀ x ∈ closed, ∀ y ∈ closed, ∀ r r' : Rule ρ, rules[x.rule]? = some r →
            rules[y.rule]? = some r' → r.production = r'.production → x.dot = y.dot → x = y) ∧
          singles g rules closed = Dotted.closureOf g g.Ahead (singles g rules items) ∧
          close g (withEnd g firsts) rules closed = some (some closed) := by
  obtain ⟨firsts, hfirsts, hsound, hclosed, hget⟩ := firsts_withEnd_ok hg.wf hplain
  obtain ⟨rules, hrules, h⟩ := rulesOf_ok hg.wf hplain
  refine ⟨firsts, rules, hfirsts, hrules, fun items hitems =>
    ⟨_, close_eq h hitems hsound hclosed hget, rfl,
    (h.exact []).closureFault?_eq items, fun x hx y hy r r' hr hr' heq hdot =>
      ?_, singles_closure h hitems, ?_⟩⟩
  · have hset := (h.exact []).itemSet_closure (place_of_stands hitems) (lt_of_has h hitems)
    have hnodup := hg.wf.nodup_flatMap_productionsOf (hg.productions_nodup hplain)
    exact hset.eq_of_place hx hy (rule_inj hrules hnodup hr hr' heq) hdot
  · rw [close_eq h (fits_closure h hitems) hsound hclosed hget,
      (h.exact []).closure_closure (place_of_stands hitems) (lt_of_has h hitems)]

/-- Before the end mark, `S → a · S b` brings in both productions of `S`, before `b`. -/
theorem closure_exact_nested : Sample.nested.Built ∧ Sample.nested.Plain ∧
    ∃ firsts rules, Sample.nested.firsts = .ok firsts ∧ rulesOf Sample.nested = .ok rules ∧
      close Sample.nested (withEnd Sample.nested firsts) rules [⟨1, 1, .singleton 0⟩] =
        some (some [⟨0, 0, .singleton 3⟩, ⟨1, 0, .singleton 3⟩, ⟨1, 1, .singleton 0⟩]) ∧
      singles Sample.nested rules [⟨0, 0, .singleton 3⟩, ⟨1, 0, .singleton 3⟩,
        ⟨1, 1, .singleton 0⟩] =
        Dotted.closureOf Sample.nested Sample.nested.Ahead
          (singles Sample.nested rules [⟨1, 1, .singleton 0⟩]) := by
  have hclosure : ∀ rules ∈ (rulesOf Sample.nested).toOption,
      (rules[1]?).map (·.symbols.length) = some 3 ∧
      closure rules (edgesOf rules) Sample.nested.nextId [⟨1, 1, .singleton 0⟩] =
        [⟨0, 0, .singleton 3⟩, ⟨1, 0, .singleton 3⟩, ⟨1, 1, .singleton 0⟩] := by decide +kernel
  obtain ⟨firsts, rules, hfirsts, hrules, h⟩ :=
    closure_exact Sample.nested_built Sample.nested_proper.plain
  obtain ⟨hlen, heq⟩ := hclosure rules (by rw [hrules]; rfl)
  obtain ⟨r, hr, hlen⟩ := Option.map_eq_some_iff.mp hlen
  have hfits : ∀ x ∈ [(⟨1, 1, .singleton 0⟩ : Item)], x.Fits Sample.nested rules := by
    intro x hx
    cases List.mem_singleton.mp hx
    refine ⟨⟨r, hr, by rw [hlen]; decide⟩, fun n hn => ⟨Sample.nested.endMark, by simp, ?_⟩⟩
    rw [BitSet.contains_singleton, decide_eq_true_iff] at hn
    exact hn
  obtain ⟨closed, hclose, rfl, -, -, hsingles, -⟩ := h _ hfits
  rw [heq] at hclose hsingles
  exact ⟨Sample.nested_built, Sample.nested_proper.plain, firsts, rules, hfirsts, hrules, hclose,
    hsingles⟩

end LR1

end AutoCool
