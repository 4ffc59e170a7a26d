import AutoCool.Grammar.Follow
import AutoCool.Proofs.Grammar.FirstSets
import AutoCool.Proofs.Grammar.Succession

/-!
# FOLLOW sets and derivations

The table of FOLLOW sets grows until it is closed under the productions: what the rest of a right
side begins with follows the nonterminal before it, and so does what follows the head when the rest
can be empty. While it grows it has nothing but what comes after a nonterminal (`FollowTable.Inv`),
and when it stops nothing is missing (`FollowTable.Closed`). `Grammar.follows_exact` says what is in
the sets in terms of derivations.
-/

namespace AutoCool

variable {ρ : Type} {g : Grammar ρ} {start : Symbol}

namespace Grammar

/-- What the FOLLOW sets of a grammar depend on: there is a start symbol among the nonterminals, and
the end mark is not declared. -/
structure Started (g : Grammar ρ) (start : Symbol) : Prop extends g.Formed where
  start_eq : g.start = some start
  start_mem : start ∈ g.nonterminals
  endMark_kind : g.endMark.kind = .endMark

theorem WF.started (hg : g.WF) (h : g.start = some start) : g.Started start :=
  { hg.formed with start_eq := h, start_mem := hg.start_mem start h, endMark_kind :=
    hg.endMark_kind }

theorem Started.endMark_notMem (hg : g.Started start) : g.endMark ∉ g.terminals := by
  intro h
  cases hg.endMark_kind.symm.trans (hg.terminal_kind _ h)

theorem Plain.rest_mem_terminals (hg : g.Formed) (hplain : g.Plain)
    (hp : g.Rewrites p (u ++ s :: v)) (hx : g.Begins v x) : x ∈ g.terminals :=
  hplain.mem_terminals hg hx fun t ht => hplain.mem_of_rewrites hp t (by simp [ht])

theorem ComesAfter.mem (hg : g.Formed) (hplain : g.Plain) (h : g.ComesAfter start s x) :
    x ∈ g.endMark :: g.terminals := by
  induction h with
  | start => exact .head _
  | after hp hx => exact .tail _ (hplain.rest_mem_terminals hg hp hx)
  | pass _ _ _ ih => exact ih

/-- The set has the terminals that can stand after a nonterminal, and the end mark when the start
symbol can end with it. -/
structure IsFollow (g : Grammar ρ) (start s : Symbol) (set : MarkedSet Symbol) : Prop where
  mem_iff : ∀ x ∈ g.terminals, x ∈ set.items ↔ ∃ X ∈ g.nonterminals, ∃ u v,
    g.Derives [X] (u ++ s :: x :: v)
  endMark_iff : g.endMark ∈ set.items ↔ ∃ u, g.Derives [start] (u ++ [s])
  subset : ∀ x ∈ set.items, x ∈ g.endMark :: g.terminals
  unmarked : set.epsilon = false

theorem isFollow_of_comesAfter (hg : g.Started start) (hplain : g.Plain) {set : MarkedSet Symbol}
    (hset : ∀ x, x ∈ set.items ↔ g.ComesAfter start s x) (hmark : set.epsilon = false) :
    g.IsFollow start s set where
  mem_iff x hx := by
    rw [hset]
    constructor
    · intro h
      obtain ⟨p, hp, hadjacent⟩ := h.adjacent fun he => hg.endMark_notMem (he ▸ hx)
      exact ⟨p.head, hg.head_mem p hp, hadjacent⟩
    · rintro ⟨X, -, u, v, h⟩
      exact comesAfter_of_derives h rfl (.inl (.terminal (hg.isTerminal hx)))
  endMark_iff := by
    rw [hset]
    constructor
    · exact fun h => h.last fun hp hx =>
        hg.endMark_notMem (hplain.rest_mem_terminals hg.toFormed hp hx)
    · rintro ⟨u, h⟩
      exact comesAfter_of_derives h rfl (.inr ⟨.nil, .start⟩)
  subset x hx := ((hset x).mp hx).mem hg.toFormed hplain
  unmarked := hmark

end Grammar

namespace FollowTable

variable {t t' : FollowTable} {s : Symbol} {f set first : MarkedSet Symbol} {firsts : FirstTable ρ}
  {p : Production ρ}
  {u v w : List Symbol}

/-- The table while it grows: an unmarked set for every nonterminal, with nothing but what comes
after it. -/
structure Inv (t : FollowTable) (g : Grammar ρ) (start : Symbol) : Prop where
  keys : t.map (·.1) = g.nonterminals.map some
  nodup : ∀ e ∈ t, e.2.items.Nodup
  unmarked : ∀ e ∈ t, e.2.epsilon = false
  sound : ∀ e ∈ t, ∀ s, e.1 = some s → ∀ x ∈ e.2.items, g.ComesAfter start s x
  ends : ∀ e ∈ t, e.1 = some start → g.endMark ∈ e.2.items

theorem mem_of_get? (h : t.get? s = some f) : (some s, f) ∈ t := by
  obtain ⟨l1, l2, h, -⟩ := List.lookup_eq_some_iff.mp h
  rw [h]; simp

namespace Inv

theorem get?_of_mem (hg : g.Formed) (ht : t.Inv g start) (h : (some s, f) ∈ t) :
    t.get? s = some f := by
  refine lookup_eq_of_mem ?_ h
  rw [ht.keys]
  exact (List.nodup_append.mp hg.declared_nodup).2.1.map (Option.some_injective _)

theorem get?_exists (hg : g.Formed) (ht : t.Inv g start) (h : s ∈ g.nonterminals) :
    ∃ f, t.get? s = some f := by
  have hkey : some s ∈ t.map (·.1) := ht.keys ▸ List.mem_map_of_mem h
  obtain ⟨e, he, hes⟩ := List.mem_map.mp hkey
  exact ⟨e.2, ht.get?_of_mem hg (hes ▸ he)⟩

theorem get?_sound (ht : t.Inv g start) (h : t.get? s = some f) :
    ∀ x ∈ f.items, g.ComesAfter start s x :=
  ht.sound _ (mem_of_get? h) s rfl

end Inv

/-! ### Growth -/

theorem total_eq (t : FollowTable) : t.total = (t.map (·.2.items.length)).sum := by
  rw [total, ← List.sum_eq_foldr]

theorem absorb_or (t : FollowTable) (s : Symbol) (set : MarkedSet Symbol) :
    t.absorb s set = t ∧ (∀ f, t.get? s = some f → ∀ x ∈ set.items, x ∈ f.items) ∨
    t.total < (t.absorb s set).total := by
  let add : Option Symbol × MarkedSet Symbol → Option Symbol × MarkedSet Symbol := fun e =>
    if e.1 == some s then (e.1, e.2.absorb set) else (e.1, e.2)
  have hadd : ∀ e ∈ t, add e = e ∨ e.2.items.length < (add e).2.items.length := by
    intro e _
    by_cases he : e.1 == some s
    · simp only [add, he, if_true]
      exact (e.2.insertAll_eq_or set.items).imp (fun h => Prod.ext rfl h) id
    · exact .inl (if_neg he)
  have habsorb : t.absorb s set = t.map add := rfl
  rcases map_stays_or_grows hadd with h | h
  · refine .inl ⟨?_, fun f hf x hx => ?_⟩
    · rw [habsorb, List.map_congr_left h, List.map_id']
    · have hsame : f.absorb set = f := by
        simpa [add] using congrArg Prod.snd (h _ (mem_of_get? hf))
      rw [← hsame]
      exact MarkedSet.mem_insertAll.mpr (.inr hx)
  · right
    rwa [total_eq, total_eq, habsorb]

/-- The set of a nonterminal has what the rest after it begins with, and what follows the head when
the rest can be empty. -/
def ClosedFor (t : FollowTable) (head s : Symbol) (first : MarkedSet Symbol) : Prop :=
  ∀ f, t.get? s = some f → (∀ x ∈ first.items, x ∈ f.items) ∧
    (first.epsilon = true → ∀ h, t.get? head = some h → ∀ x ∈ h.items, x ∈ f.items)

theorem stepNonterminal_or (t : FollowTable) (head s : Symbol) (first : MarkedSet Symbol) :
    t.stepNonterminal head s first = t ∧ t.ClosedFor head s first ∨
    t.total < (t.stepNonterminal head s first).total := by
  unfold stepNonterminal
  cases he : first.epsilon with
  | false =>
    simp only [Bool.false_eq_true, if_false]
    exact (t.absorb_or s first).imp_left fun h =>
      ⟨h.1, fun f hf => ⟨h.2 f hf, fun he' => by simp [he] at he'⟩⟩
  | true =>
    simp only [if_true]
    rcases t.absorb_or s first with ⟨h, hitems⟩ | h
    · rw [h]
      refine (t.absorb_or s ((t.get? head).getD {})).imp_left fun h' =>
        ⟨h'.1, fun f hf => ⟨hitems f hf, fun _ k hk => ?_⟩⟩
      simpa [hk] using h'.2 f hf
    · right
      rcases (t.absorb s first).absorb_or s
        (((t.absorb s first).get? head).getD {}) with ⟨h', -⟩ | h'
      · rwa [h']
      · exact h.trans h'

/-- The productions that were taken into account ask for nothing more. -/
def ClosedAt (t : FollowTable) (g : Grammar ρ) (firsts : FirstTable ρ) (p : Production ρ) : Prop :=
  ∀ u s v first, p.body.word? = some (u ++ s :: v) → s ∈ g.nonterminals →
    firsts.phrase v = .ok first →
    t.ClosedFor p.head s first

/-! ### The invariant of the iteration -/

namespace Inv

theorem absorb (ht : t.Inv g start) (hset : ∀ x ∈ set.items, g.ComesAfter start s x) :
    (t.absorb s set).Inv g start := by
  have hmem : ∀ e ∈ t.absorb s set, ∃ e' ∈ t, e.1 = e'.1 ∧
      (e = e' ∨ e.1 = some s ∧ e.2 = e'.2.absorb set) := by
    intro e he
    obtain ⟨e', he', rfl⟩ := List.mem_map.mp he
    refine ⟨e', he', ?_⟩
    by_cases h : e'.1 = some s
    · simp [h]
    · simp [h]
  refine ⟨?_, fun e he => ?_, fun e he => ?_, fun e he s' hs' x hx => ?_, fun e he hs' => ?_⟩
  · rw [← ht.keys, FollowTable.absorb, List.map_map]
    refine List.map_congr_left fun e _ => ?_
    simp only [Function.comp_apply]
    split <;> rfl
  all_goals obtain ⟨e', he', hfst, rfl | ⟨hs, hsnd⟩⟩ := hmem e he
  · exact ht.nodup e he'
  · exact hsnd ▸ MarkedSet.nodup_insertAll (ht.nodup e' he')
  · exact ht.unmarked e he'
  · rw [hsnd, MarkedSet.absorb, MarkedSet.epsilon_insertAll]
    exact ht.unmarked e' he'
  · exact ht.sound e he' s' hs' x hx
  · rw [hsnd] at hx
    rcases MarkedSet.mem_insertAll.mp hx with hx | hx
    · exact ht.sound e' he' s' (hfst ▸ hs') x hx
    · exact Option.some.inj (hs.symm.trans hs') ▸ hset x hx
  · exact ht.ends e he' hs'
  · rw [hsnd]
    exact MarkedSet.mem_insertAll.mpr (.inl (ht.ends e' he' (hfst ▸ hs')))

theorem stepNonterminal (ht : t.Inv g start) (hp : g.Rewrites p (u ++ s :: v))
    (hfirst : g.FirstSound v first) : (t.stepNonterminal p.head s first).Inv g start := by
  have hitems : (t.absorb s first).Inv g start :=
    ht.absorb fun x hx => .after hp (hfirst.begins x hx)
  unfold FollowTable.stepNonterminal
  cases he : first.epsilon with
  | false => exact hitems
  | true =>
    refine hitems.absorb fun x hx => ?_
    cases hhead : (t.absorb s first).get? p.head with
    | none => rw [hhead] at hx; cases hx
    | some f =>
      rw [hhead] at hx
      exact .pass hp (hfirst.nullable he) (hitems.get?_sound hhead x hx)

theorem stepSymbols_ok (hg : g.Formed) (hplain : g.Plain) (hfirsts : firsts.Inv g)
    (ht : t.Inv g start)
    (hp : g.Rewrites p (u ++ w)) : ∃ t', stepSymbols firsts p.head w t = .ok t' ∧ t'.Inv g start ∧
      (t.total < t'.total ∨ t' = t ∧ ∀ u' s v first, w = u' ++ s :: v → s ∈ g.nonterminals →
        firsts.phrase v = .ok first → t.ClosedFor p.head s first) := by
  induction w generalizing t u with
  | nil => exact ⟨t, rfl, ht, .inr ⟨rfl, by simp⟩⟩
  | cons s w ih =>
    have hdeclared := hplain.mem_of_rewrites hp
    have hrest : g.Rewrites p ((u ++ [s]) ++ w) := by simpa using hp
    by_cases hs : s.isNonterminal = true
    · have hmem : s ∈ g.nonterminals := by
        refine (List.mem_append.mp (hdeclared s (by simp))).resolve_left fun h => ?_
        have := hg.isTerminal h
        simp [Symbol.isTerminal, hs] at this
      obtain ⟨f, hf⟩ := ht.get?_exists hg hmem
      obtain ⟨first, hfirst⟩ := firsts.phrase_ok (w := w) fun x hx =>
          hfirsts.get?_exists hg (hdeclared x (by simp [hx]))
      have ht1 := ht.stepNonterminal hp (hfirsts.table_sound.phrase hfirst)
      obtain ⟨t', hstep, ht', hor⟩ := ih ht1 hrest
      refine ⟨t', ?_, ht', ?_⟩
      · simp only [stepSymbols, hs, if_true, hf, Option.isNone_some, Bool.false_eq_true,
          if_false, hfirst]
        exact hstep
      · rcases t.stepNonterminal_or p.head s first with ⟨hsame, hclosed⟩ | hlt
        · rw [hsame] at hor
          refine hor.imp_right fun h => ⟨h.1, fun u' s' v first' hw hs' hfirst' => ?_⟩
          cases u' with
          | nil =>
            cases hw
            cases hfirst.symm.trans hfirst'
            exact hclosed
          | cons x u' =>
            cases hw
            exact h.2 u' s' v first' rfl hs' hfirst'
        · left
          rcases hor with h | ⟨rfl, -⟩
          · exact hlt.trans h
          · exact hlt
    · obtain ⟨t', hstep, ht', hor⟩ := ih ht hrest
      refine ⟨t', by simpa only [stepSymbols, hs, Bool.false_eq_true,
        if_false] using hstep, ht', ?_⟩
      refine hor.imp_right fun h => ⟨h.1, fun u' s' v first' hw hs' hfirst' => ?_⟩
      cases u' with
      | nil =>
        cases hw
        exact absurd (by simp [Symbol.isNonterminal, hg.nonterminal_kind s hs']) hs
      | cons x u' =>
        cases hw
        exact h.2 u' s' v first' rfl hs' hfirst'

theorem step_ok (hg : g.Formed) (hplain : g.Plain) (hfirsts : firsts.Inv g) (ht : t.Inv g start)
    (hp : p ∈ g.productions) : ∃ t', step firsts t p = .ok t' ∧ t'.Inv g start ∧
      (t.total < t'.total ∨ t' = t ∧ t.ClosedAt g firsts p) := by
  obtain ⟨f, hf⟩ := ht.get?_exists hg (hg.head_mem p hp)
  obtain ⟨w, hw, -⟩ := hplain p hp
  obtain ⟨t', hstep, ht', hor⟩ := ht.stepSymbols_ok hg hplain hfirsts (u := []) (w := w) ⟨hp, hw⟩
  refine ⟨t', ?_, ht', hor.imp_right fun h => ⟨h.1, fun u s v first hbody => ?_⟩⟩
  · rw [step, hf]
    cases hb : p.body with
    | epsilon =>
      rw [hb] at hw
      cases hw
      exact hstep
    | sentence symbols =>
      rw [hb] at hw
      cases hw
      exact hstep
    | stray e =>
      rw [hb] at hw
      cases hw
  · exact h.2 u s v first (Option.some.inj (hw.symm.trans hbody))

theorem foldlM_ok (hg : g.Formed) (hplain : g.Plain) (hfirsts : firsts.Inv g) (ht : t.Inv g start)
    {l : List (Production ρ)} (hl : ∀ p ∈ l, p ∈ g.productions) : ∃ t', l.foldlM (step firsts) t =
      .ok t' ∧
      t'.Inv g start ∧ (t.total < t'.total ∨ t' = t ∧ ∀ p ∈ l, t.ClosedAt g firsts p) := by
  induction l generalizing t with
  | nil => exact ⟨t, rfl, ht, .inr ⟨rfl, by simp⟩⟩
  | cons p l ih =>
    obtain ⟨t1, hstep, ht1, hor1⟩ := ht.step_ok hg hplain hfirsts (hl p (.head _))
    obtain ⟨t2, hfold, ht2, hor2⟩ := ih ht1 fun q hq => hl q (.tail p hq)
    refine ⟨t2, by rw [List.foldlM_cons, hstep]; exact hfold, ht2, ?_⟩
    rcases hor1 with h1 | ⟨rfl, hclosed⟩
    · left
      rcases hor2 with h2 | ⟨rfl, -⟩
      · exact h1.trans h2
      · exact h1
    · refine hor2.imp_right fun h => ⟨h.1, fun q hq => ?_⟩
      rcases List.mem_cons.mp hq with rfl | hq
      · exact hclosed
      · exact h.2 q hq

theorem total_lt (hg : g.Formed) (hplain : g.Plain) (ht : t.Inv g start) :
    t.total < g.followsBound := by
  have hlen : t.length = g.nonterminals.length := by
    simpa using congrArg List.length ht.keys
  have hsize : ∀ n ∈ t.map (·.2.items.length), n ≤ g.terminals.length + 1 := by
    intro n hn
    obtain ⟨e, he, rfl⟩ := List.mem_map.mp hn
    have hkey : e.1 ∈ g.nonterminals.map some := ht.keys ▸ List.mem_map_of_mem he
    obtain ⟨s, -, hs⟩ := List.mem_map.mp hkey
    exact (List.subperm_of_subset (ht.nodup e he) fun x hx =>
      (ht.sound e he s hs.symm x hx).mem hg hplain).length_le
  have hsum := List.sum_le_card_nsmul (t.map (·.2.items.length)) (g.terminals.length + 1) hsize
  rw [List.length_map, hlen, smul_eq_mul] at hsum
  rw [total_eq, Grammar.followsBound, Nat.add_mul]
  omega

theorem iterate_ok (hg : g.Formed) (hplain : g.Plain) (hfirsts : firsts.Inv g) (ht : t.Inv g start)
    (hfuel : g.followsBound ≤ fuel + t.total) : ∃ t',
      (∀ n, fuel ≤ n → iterate firsts g.productions n t = .ok t') ∧
      t'.Inv g start ∧ ∀ p ∈ g.productions, t'.ClosedAt g firsts p := by
  refine rounds_ok (fun ht => ht.total_lt hg hplain) (fun {t} ht => ?_) ht hfuel
  obtain ⟨t', hfold, ht', hor⟩ := ht.foldlM_ok hg hplain hfirsts fun p hp => hp
  refine ⟨t', ht', fun n => by rw [iterate, hfold]; rfl, hor.imp_right ?_⟩
  rintro ⟨rfl, hclosed⟩
  exact ⟨rfl, hclosed⟩

theorem base (hg : g.Started start) : g.followsBase.Inv g start := by
  have hany : g.nonterminals.any (g.start == some ·) = true :=
    List.any_eq_true.mpr ⟨start, hg.start_mem, by simp [hg.start_eq]⟩
  have hbase : g.followsBase = g.nonterminals.map fun s =>
      (some s, if g.start == some s then { items := [g.endMark] } else {}) := by
    unfold Grammar.followsBase
    rw [if_pos hany]
  have hmem : ∀ e ∈ g.followsBase, e = (some start, { items := [g.endMark] }) ∨ ∃ s, s ≠ start ∧
      e = (some s, {}) := by
    intro e he
    rw [hbase] at he
    obtain ⟨s, -, rfl⟩ := List.mem_map.mp he
    by_cases hs : s = start
    · left; simp [hs, hg.start_eq]
    · right; exact ⟨s, hs, by simp [hg.start_eq, Ne.symm hs]⟩
  refine ⟨by simp [hbase,
    Function.comp_def], fun e he => ?_, fun e he => ?_, fun e he s hs x hx => ?_, fun e he hs => ?_⟩
  all_goals obtain rfl | ⟨s', hs', rfl⟩ := hmem e he
  · exact List.nodup_singleton _
  · exact List.nodup_nil
  · rfl
  · rfl
  · cases hs
    rw [List.mem_singleton.mp hx]
    exact .start
  · cases hx
  · exact List.mem_singleton.mpr rfl
  · exact absurd (Option.some.inj hs) hs'

theorem mem_of_comesAfter (hg : g.Formed) (hplain : g.Plain) (hfirsts : firsts.Inv g)
    (hclosed : firsts.Closed g) (ht : t.Inv g start)
    (hclosed' : ∀ p ∈ g.productions, t.ClosedAt g firsts p) (h : g.ComesAfter start s x)
    (hs : s ∈ g.nonterminals) (hf : t.get? s = some f) : x ∈ f.items := by
  have hrest : ∀ {p : Production ρ} {u v : List Symbol} {s : Symbol}, g.Rewrites p (u ++ s :: v) →
      ∃ first, firsts.phrase v = .ok first := fun hp =>
    firsts.phrase_ok fun y hy => hfirsts.get?_exists hg (hplain.mem_of_rewrites hp y (by simp [hy]))
  induction h generalizing f with
  | start => exact ht.ends _ (mem_of_get? hf) rfl
  | @after p u s v x hp hx =>
    obtain ⟨first, hfirst⟩ := hrest hp
    exact (hclosed' p hp.1 u s v first hp.2 hs hfirst f hf).1 x (hclosed.mem hx hfirst)
  | @pass p u s v x hp hv _ ih =>
    obtain ⟨first, hfirst⟩ := hrest hp
    have hhead := hg.head_mem p hp.1
    obtain ⟨k, hk⟩ := ht.get?_exists hg hhead
    exact (hclosed' p hp.1 u s v first hp.2 hs hfirst f hf).2 (hclosed.epsilon hv hfirst) k hk x
      (ih hhead hk)

end Inv

end FollowTable

/-- The rounds end by themselves, whatever number above the bound is allowed, and the set of every
nonterminal is exact. -/
theorem Grammar.follows_exact (hg : g.Started start) (hplain : g.Plain) :
    ∃ firsts t, g.firsts = .ok firsts ∧ g.follows firsts = .ok t ∧
    (∀ rounds, g.followsBound ≤ rounds →
      FollowTable.iterate firsts g.productions rounds g.followsBase = .ok t) ∧ ∀ s ∈ g.nonterminals,
    ∃ f, t.get? s = some f ∧ g.IsFollow start s f := by
  obtain ⟨firsts, hiter₁, hfirsts, hclosed₁, -⟩ := hg.toFormed.firsts_ok hplain
  obtain ⟨t, hiter, ht, hclosed⟩ := (FollowTable.Inv.base hg).iterate_ok hg.toFormed hplain hfirsts
      (Nat.le_add_right _ _)
  refine ⟨firsts, t, hiter₁ _ (Nat.le_refl _), hiter _ (Nat.le_refl _), hiter, fun s hs => ?_⟩
  obtain ⟨f, hf⟩ := ht.get?_exists hg.toFormed hs
  refine ⟨f, hf, isFollow_of_comesAfter hg hplain (fun x => ⟨ht.get?_sound hf x, fun hx => ?_⟩)
    (ht.unmarked _ (FollowTable.mem_of_get? hf))⟩
  exact ht.mem_of_comesAfter hg.toFormed hplain hfirsts hclosed₁ hclosed hx hs hf

namespace Sample.Recursive

theorem started : grammar.Started A :=
  { formed with start_eq := rfl, start_mem := by decide, endMark_kind := rfl }

/-- Both terminals follow `C`, and no sentential form that the start symbol derives ends with it. -/
theorem follows_exact_recursive : grammar.Started A ∧ grammar.Plain ∧
    (∃ X ∈ grammar.nonterminals, ∃ u v, grammar.Derives [X] (u ++ C :: a :: v)) ∧
    (∃ X ∈ grammar.nonterminals, ∃ u v, grammar.Derives [X] (u ++ C :: b :: v)) ∧
    ¬ ∃ u, grammar.Derives [A] (u ++ [C]) := by
  obtain ⟨firsts, t, hfirsts, ht, -, hsets⟩ :=
    Grammar.follows_exact started (by decide : grammar.Plain)
  obtain ⟨f, hf, hfollow⟩ := hsets C (by decide)
  have hitems : ∀ firsts ∈ grammar.firsts.toOption, ∀ t ∈ (grammar.follows firsts).toOption,
      ∀ f ∈ t.get? C,
      f.items = [b, a] := by decide +kernel
  have hf : f.items = [b, a] := hitems firsts (by rw [hfirsts]; rfl) t (by rw [ht]; rfl) f hf
  refine ⟨started, by decide, ?_, ?_, ?_⟩
  · exact (hfollow.mem_iff a (by decide)).mp (by rw [hf]; decide)
  · exact (hfollow.mem_iff b (by decide)).mp (by rw [hf]; decide)
  · rw [← hfollow.endMark_iff, hf]
    decide

end Sample.Recursive

end AutoCool
