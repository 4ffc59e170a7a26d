import AutoCool.Proofs.Grammar.First
import AutoCool.Proofs.Grammar.Rewriting

/-!
# FIRST sets and derivations

The table of FIRST sets has a set for every declared symbol and one for every right side.
`Grammar.firsts_exact` says what is in them in terms of derivations: a terminal is in the set of a
phrase exactly when the phrase derives a sentential form that begins with it, and the set is marked
exactly when the phrase derives the empty word.
-/

namespace AutoCool

variable {ρ : Type} {g : Grammar ρ} {w : List Symbol}

namespace Grammar

/-- The set has the terminals that a phrase can begin with, and is marked when the phrase can be
empty. -/
structure IsFirst (g : Grammar ρ) (w : List Symbol) (set : MarkedSet Symbol) : Prop where
  mem_iff : ∀ x, x ∈ set.items ↔ x ∈ g.terminals ∧ ∃ v, g.Derives w (x :: v)
  epsilon_iff : set.epsilon = true ↔ g.Derives w []

theorem FirstSound.isFirst {set : MarkedSet Symbol} (hg : g.Formed) (hplain : g.Plain)
    (hw : ∀ s ∈ w, s ∈ g.terminals ++ g.nonterminals) (h : g.FirstSound w set)
    (hmem : ∀ x, g.Begins w x → x ∈ set.items) (hepsilon : g.Nullable w → set.epsilon = true) :
    g.IsFirst w set where
  mem_iff x := by
    constructor
    · intro hx
      have hbegins := h.begins x hx
      exact ⟨hplain.mem_terminals hg hbegins hw, (begins_iff.mp hbegins).2⟩
    · rintro ⟨hx, hv⟩
      exact hmem x (begins_iff.mpr ⟨hg.isTerminal hx, hv⟩)
  epsilon_iff :=
    ⟨fun he => nullable_iff.mp (h.nullable he), fun hv => hepsilon (nullable_iff.mpr hv)⟩

end Grammar

namespace FirstTable

variable {t : FirstTable ρ}

theorem phrase_singleton (h : t.get? s = some f) :
    ∃ r, t.phrase [s] = .ok r ∧ (∀ x, x ∈ r.items → x ∈ f.items) ∧ r.epsilon = f.epsilon := by
  obtain ⟨r, hr⟩ := t.phrase_ok (w := [s]) fun x hx => ⟨f, List.mem_singleton.mp hx ▸ h⟩
  refine ⟨r, hr, ?_⟩
  obtain ⟨f', hf', ⟨-, rfl⟩ | ⟨he, r', hr', rfl⟩⟩ := phrase_cons_ok hr
  · cases h.symm.trans hf'
    exact ⟨fun _ hx => hx, rfl⟩
  · cases h.symm.trans hf'
    cases hr'
    refine ⟨fun x hx => ?_, by rw [MarkedSet.epsilon_join, he]; rfl⟩
    rcases MarkedSet.mem_join.mp hx with hx | hx
    · exact hx
    · cases hx

theorem entry_of_find? (he : ∀ s, e ≠ .symbol s) (hkey : e.isKey = true)
    (hfind : t.bodies.find? (fun x => x.body.toTerm.alike e) = some x)
    (hsame : x.body.toTerm.same e = .ok true) : t.entry e = .ok x.set := by
  rw [entry, hkey, hfind]
  · simp only [Bool.not_true, Bool.false_eq_true, if_false, hsame]
    rfl
  · exact fun s h => he s h

namespace Inv

theorem entry_eq (hplain : g.Plain) (ht : t.Inv g) (he : e ∈ t.bodies)
    (hw : e.body.word? = some w) : t.entry e.body.toTerm = .ok e.set := by
  have hfind : t.bodies.find? (fun x => x.body.toTerm.alike e.body.toTerm) = some e := by
    obtain ⟨x, hx⟩ : ∃ x, t.bodies.find? (fun x => x.body.toTerm.alike e.body.toTerm) = some x :=
      Option.isSome_iff_exists.mp (List.find?_isSome.mpr ⟨e, he, alike_self hw⟩)
    have hmem := List.mem_of_find?_eq_some hx
    obtain ⟨p, hp, hbody⟩ := ht.origin x hmem
    obtain ⟨v, hv, -⟩ := hplain p (List.mem_of_getElem? hp)
    -- a right side is found under itself only, and has one entry
    have heq : x.body = e.body := eq_of_alike (hbody ▸ hv) hw (by simpa using List.find?_some hx)
    rw [hx, List.inj_on_of_nodup_map ht.body_nodup hmem he heq]
  cases hb : e.body with
  | epsilon | sentence symbols =>
    rw [← hb]
    exact entry_of_find? (by simp [hb, Body.toTerm, Term.ofSymbols])
      (by simp [hb, Body.toTerm, Term.ofSymbols, Term.isKey]) hfind (same_self hw)
  | stray e => rw [hb] at hw; cases hw

theorem isFirst_of_get? (hg : g.Formed) (hplain : g.Plain) (ht : t.Inv g) (hclosed : t.Closed g)
    {s : Symbol} (hf : t.get? s = some f) (hs : s ∈ g.terminals ++ g.nonterminals) :
    g.IsFirst [s] f := by
  obtain ⟨r, hr, hitems, hepsilon⟩ := phrase_singleton hf
  refine (ht.table_sound s f hf).isFirst hg hplain (by simpa using hs) (fun x hx => ?_) fun hnull =>
    ?_
  · exact hitems x (hclosed.mem hx hr)
  · exact hepsilon ▸ hclosed.epsilon hnull hr

theorem isFirst_of_body (hg : g.Formed) (hplain : g.Plain) (ht : t.Inv g) (hclosed : t.Closed g)
    {p : Production ρ} (hp : p ∈ g.productions) (hw : p.body.word? = some w) (hbody : t.HasBody p) :
    ∃ f, t.entry p.body.toTerm = .ok f ∧ g.IsFirst w f := by
  obtain ⟨e, he, heq, hsub⟩ := hbody
  have hew : e.body.word? = some w := heq ▸ hw
  obtain ⟨v, hv, hmem⟩ := hplain p hp
  obtain rfl := Option.some.inj (hv.symm.trans hw)
  obtain ⟨r, hr⟩ := t.phrase_ok fun s hs => ht.get?_exists hg (hmem s hs)
  refine ⟨e.set, heq ▸ ht.entry_eq hplain he hew, ?_⟩
  refine (ht.body_sound e he v hew).isFirst hg hplain hmem (fun x hx => ?_) fun hnull => ?_
  · exact (hsub v r hw hr).items x (hclosed.mem hx hr)
  · exact (hsub v r hw hr).epsilon (hclosed.epsilon hnull hr)

end Inv

end FirstTable

/-- The rounds end by themselves, whatever number above the bound is allowed, and the sets are
exact: that of every declared symbol and that of every right side. -/
theorem Grammar.firsts_exact (hg : g.Formed) (hplain : g.Plain) :
    ∃ t, g.firsts = .ok t ∧ (∀ rounds, g.firstsBound ≤ rounds →
      FirstTable.iterate g.productions rounds g.firstsBase = .ok t) ∧
    (∀ s ∈ g.terminals ++ g.nonterminals, ∃ f, t.get s = .ok f ∧ g.IsFirst [s] f) ∧
    ∀ p ∈ g.productions, ∃ w f, p.body.word? = some w ∧ t.entry p.body.toTerm = .ok f ∧
    g.IsFirst w f := by
  obtain ⟨t, hiter, ht, hclosed, hbodies⟩ := hg.firsts_ok hplain
  refine ⟨t, hiter _ (Nat.le_refl _), hiter, fun s hs => ?_, fun p hp => ?_⟩
  · obtain ⟨f, hf⟩ := ht.get?_exists hg hs
    exact ⟨f, FirstTable.get_eq hf, ht.isFirst_of_get? hg hplain hclosed hf hs⟩
  · obtain ⟨w, hw, -⟩ := hplain p hp
    obtain ⟨f, hf, hfirst⟩ := ht.isFirst_of_body hg hplain hclosed hp hw (hbodies p hp)
    exact ⟨w, f, hw, hf, hfirst⟩

/-! ### Left recursion through a nonterminal that can be empty -/

namespace Sample.Recursive

def A : Symbol := { id := 1, name := "A", kind := .nonterminal }

def C : Symbol := { id := 2, name := "C", kind := .nonterminal }

def a : Symbol := { id := 3, name := "a", kind := .terminal }

def b : Symbol := { id := 4, name := "b", kind := .terminal }

/-- The grammar `A → A b | C A a | ε`, `C → A`. -/
def grammar : Grammar Unit :=
  let g := (((({} : Grammar Unit).pushStart "A").2.nonterminalsOf "C").2.terminalsOf "a b").2
  let g := (g.extend A (.sentence [.symbol A, .symbol b])).1
  let g := (g.extend A (.sentence [.symbol C, .symbol A, .symbol a])).1
  ((g.extend A .epsilon).1.extend C (.symbol A)).1

theorem formed : grammar.Formed where
  terminal_kind := by decide
  nonterminal_kind := by decide
  declared_nodup := by decide
  head_mem := by decide

theorem nullable_A : grammar.Nullable [A] :=
  .cons (p := { head := A, body := .epsilon }) ⟨.tail _ (.tail _ (.head _)), rfl⟩ .nil .nil

theorem begins_a : grammar.Begins [A] a :=
  .enter (p := { head := A, body := .sentence [C, A, a] }) ⟨.tail _ (.head _), rfl⟩
    (.skip (p := { head := C, body := .sentence [A] }) ⟨.tail _ (.tail _ (.tail _ (.head _))), rfl⟩
      nullable_A
      (nullable_A.begins_append (.terminal rfl)))

theorem begins_b : grammar.Begins [A] b :=
  .enter (p := { head := A, body := .sentence [A, b] }) ⟨.head _, rfl⟩
    (nullable_A.begins_append (.terminal rfl))

theorem firsts_exact_recursive : grammar.Formed ∧ grammar.Plain ∧ ∃ t f, grammar.firsts = .ok t ∧
    t.get A = .ok f ∧ (∀ x, x ∈ f.items ↔ x = a ∨ x = b) ∧ f.epsilon = true := by
  obtain ⟨t, ht, -, hsymbols, -⟩ := Grammar.firsts_exact formed (by decide : grammar.Plain)
  obtain ⟨f, hf, hfirst⟩ := hsymbols A (by decide)
  refine ⟨formed, by decide, t, f, ht, hf, fun x => ?_, hfirst.epsilon_iff.mpr nullable_A.derives⟩
  rw [hfirst.mem_iff]
  constructor
  · rintro ⟨hx, -⟩
    simpa using (show x ∈ [a, b] from hx)
  · rintro (rfl | rfl)
    · exact ⟨by decide, (Grammar.begins_iff.mp begins_a).2⟩
    · exact ⟨by decide, (Grammar.begins_iff.mp begins_b).2⟩

end Sample.Recursive

end AutoCool
