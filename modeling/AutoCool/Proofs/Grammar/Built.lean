import Mathlib.Data.List.DropRight
import Mathlib.Data.List.Nodup
import AutoCool.Proofs.Grammar.Derivation

/-!
# Grammars that are built step by step

`Grammar.Built` holds of the grammars that the operations make: declaring symbols, adding right
sides to nonterminals, copying. A copy shares its symbols with the grammar it was made from, and a
right side that is added to a shared nonterminal belongs to that grammar, so right sides are added
to the nonterminals that a grammar declared itself.

`Grammar.WF` is the invariant of these grammars: symbols are told apart by their numbers, and the
two records of the productions, by grammar and by symbol, agree.
-/

namespace AutoCool

variable {ρ : Type}

namespace Text

/-- A name with no blank at its ends. -/
structure Trimmed (name : String) : Prop where
  ne_empty : name.isEmpty = false
  trim_eq : trim name = name

theorem trimmed_trim (h : (trim name).isEmpty = false) : Trimmed (trim name) := by
  have hfirst : ((name.toList.dropWhile isBlank).rdropWhile isBlank).dropWhile isBlank =
      (name.toList.dropWhile isBlank).rdropWhile isBlank := by
    refine List.dropWhile_eq_self_iff.mpr fun hlt => ?_
    rw [(List.rdropWhile_prefix ..).getElem hlt]
    exact List.dropWhile_get_zero_not _ _ _
  have hlast := List.rdropWhile_idempotent isBlank (name.toList.dropWhile isBlank)
  refine ⟨h, congrArg String.ofList ?_⟩
  rw [trim, String.toList_ofList]
  exact (congrArg _ hfirst).trans hlast

theorem trimmed_of_mem_wordsFrom (hword : ∀ c ∈ word, isBlank c = false) :
    ∀ w ∈ wordsFrom word cs, Trimmed w := by
  have hwhole : ∀ word : List Char, (∀ c ∈ word, isBlank c = false) → word.isEmpty = false →
      Trimmed (String.ofList word.reverse) := by
    intro word hword hne
    refine ⟨?_, ?_⟩
    · rw [← Bool.not_eq_true, String.isEmpty_iff, ← String.toList_inj]
      simpa using hne
    · have hdrop : ∀ l : List Char, (∀ c ∈ l, isBlank c = false) → l.dropWhile isBlank = l :=
        fun l hl =>
        List.dropWhile_eq_self_iff.mpr fun hlt => by simp [hl _ (List.getElem_mem hlt)]
      rw [trim, String.toList_ofList, hdrop word.reverse (by simpa using hword),
        List.reverse_reverse, hdrop _ hword]
  induction cs generalizing word with
  | nil =>
    intro w hw
    cases h : word.isEmpty with
    | true => simp [wordsFrom, h] at hw
    | false =>
      simp only [wordsFrom, h, Bool.false_eq_true, if_false, List.mem_singleton] at hw
      exact hw ▸ hwhole word hword h
  | cons c cs ih =>
    intro w hw
    rw [wordsFrom] at hw
    split at hw
    · cases h : word.isEmpty with
      | true => simp only [h, if_true] at hw; exact ih (by simp) w hw
      | false =>
        simp only [h, Bool.false_eq_true, if_false, List.mem_cons] at hw
        rcases hw with rfl | hw
        · exact hwhole word hword h
        · exact ih (by simp) w hw
    · exact ih (by simp_all) w hw

theorem trimmed_of_mem_words : ∀ w ∈ words text, Trimmed w := trimmed_of_mem_wordsFrom (by simp)

end Text

/-- The symbols that stand anywhere in a term. -/
inductive Term.Occurs (s : Symbol) : Term ρ → Prop
  | symbol : Occurs s (.symbol s)
  | sentence {t parts} : t ∈ parts → Occurs s t → Occurs s (.sentence parts)
  | choice {t items} : t ∈ items → Occurs s t → Occurs s (.choice items)
  | tuple {t parts} : t ∈ parts → Occurs s t → Occurs s (.tuple parts)

theorem Term.occurs_ofSymbols : (ofSymbols w : Term ρ).Occurs s ↔ s ∈ w := by
  refine ⟨fun h => ?_, fun h => .sentence (List.mem_map_of_mem h) .symbol⟩
  cases h with
  | sentence hmem h =>
    obtain ⟨a, ha, rfl⟩ := List.mem_map.mp hmem
    cases h
    exact ha

theorem Term.map_symbol_of_symbolsOf? (h : symbolsOf? parts = some w) :
    w.map Term.symbol = parts := by
  fun_induction symbolsOf? parts generalizing w with
  | case1 => cases h; rfl
  | case2 s parts ih =>
    obtain ⟨w, hw, rfl⟩ := Option.map_eq_some_iff.mp h
    rw [List.map_cons, ih hw]
  | case3 => cases h

theorem Term.sameParts_map_symbol (w w' : List Symbol) :
    sameParts (w.map fun s => (.symbol s : Term ρ)) (w'.map .symbol) = .ok (decide (w = w')) := by
  induction w generalizing w' with
  | nil => cases w' <;> simp [sameParts]
  | cons s w ih =>
    cases w' with
    | nil => simp [sameParts]
    | cons s' w' =>
      by_cases h : s = s'
      · simp [sameParts, same, h, ih, bind, Except.bind]
      · simp [sameParts, same, h, bind, Except.bind, pure, Except.pure]

theorem Body.same_sentence (w w' : List Symbol) :
    (.sentence w : Body ρ).same (.sentence w') = .ok (decide (w = w')) := by
  simp only [same, toTerm, Term.ofSymbols, Term.same]
  exact Term.sameParts_map_symbol w w'

theorem Body.toTerm_ofTerm (t : Term ρ) : (Body.ofTerm t).toTerm = t := by
  cases t with
  | sentence parts =>
    rw [ofTerm]
    cases h : Term.symbolsOf? parts with
    | none => rfl
    | some w => exact congrArg Term.sentence (Term.map_symbol_of_symbolsOf? h)
  | _ => rfl

namespace Grammar

/-- All symbols of the grammar: the end mark and those that were declared. -/
def symbols (g : Grammar ρ) : List Symbol := g.endMark :: (g.terminals ++ g.nonterminals)

/-- Every right side is a word of declared symbols, perhaps the empty one. -/
def Plain (g : Grammar ρ) : Prop :=
  ∀ p ∈ g.productions, ∃ w, p.body.word? = some w ∧ ∀ s ∈ w, s ∈ g.terminals ++ g.nonterminals

instance (g : Grammar ρ) : Decidable g.Plain :=
  decidable_of_iff
    (∀ p ∈ g.productions, (p.body.word?.any fun w => w.all (· ∈ g.terminals ++ g.nonterminals)) =
      true)
    (by simp only [Plain, Option.any_eq_true, List.all_eq_true, decide_eq_true_iff])

theorem Plain.mem_of_rewrites {g : Grammar ρ} (hplain : g.Plain)
    (hp : g.Rewrites p w) : ∀ s ∈ w, s ∈ g.terminals ++ g.nonterminals := by
  obtain ⟨w', hw', hmem⟩ := hplain p hp.1
  cases hp.2.symm.trans hw'
  exact hmem

theorem mem_symbols_of_ahead {g : Grammar ρ} (hs : s ∈ g.terminals ++ [g.endMark]) :
    s ∈ g.symbols := by
  rcases List.mem_append.mp hs with hs | hs
  · exact .tail _ (List.mem_append_left _ hs)
  · exact List.mem_singleton.mp hs ▸ (.head _)

/-- The grammars that the operations make. -/
inductive Built : Grammar ρ → Prop
  | empty (n : Nat) : Built { endMark := Symbol.endMark n }
  | terminal {g name s g'} : Built g → g.terminal name = .ok (s, g') → Built g'
  | nonterminal {g name isStart s g'} : Built g → g.nonterminal name isStart = .ok (s, g') →
      Built g'
  | terminals {g names} : Built g → Built (g.terminalsOf names).2
  | nonterminals {g names} : Built g → Built (g.nonterminalsOf names).2
  | extend {g head t} : Built g → head ∈ g.nonterminals → head.generation = g.earlier.length →
    Built (g.extend head t).1
  | copy {g} : Built g → Built g.copy

theorem Built.start : Built (({} : Grammar ρ).pushStart "S").2 :=
  @Built.nonterminal _ _ "S" true _ _ (.empty 0) rfl

/-- The invariant of the grammars that are built. -/
structure WF (g : Grammar ρ) : Prop where
  endMark_kind : g.endMark.kind = .endMark
  terminal_kind : ∀ s ∈ g.terminals, s.kind = .terminal
  nonterminal_kind : ∀ s ∈ g.nonterminals, s.kind = .nonterminal
  id_lt : ∀ s ∈ g.symbols, s.id < g.nextId
  id_nodup : (g.symbols.map (·.id)).Nodup
  name_ne : ∀ s ∈ g.terminals ++ g.nonterminals, s.name.isEmpty = false
  start_mem : ∀ s, g.start = some s → s ∈ g.nonterminals
  head_mem : ∀ p ∈ g.filed, p.head ∈ g.nonterminals
  filed_eq : g.productions = g.filed
  attributed : ∀ p ∈ g.productions, g.ledger.attributed = some p.isAttributed

/-- What the sets of a grammar depend on: no symbol is declared twice, the kinds of the symbols are
those of their declarations, and the productions belong to declared nonterminals. -/
structure Formed (g : Grammar ρ) : Prop where
  terminal_kind : ∀ s ∈ g.terminals, s.kind = .terminal
  nonterminal_kind : ∀ s ∈ g.nonterminals, s.kind = .nonterminal
  declared_nodup : (g.terminals ++ g.nonterminals).Nodup
  head_mem : ∀ p ∈ g.productions, p.head ∈ g.nonterminals

theorem Formed.isTerminal {g : Grammar ρ} (hg : g.Formed) (hs : s ∈ g.terminals) :
    s.isTerminal = true := by
  simp [Symbol.isTerminal, Symbol.isNonterminal, hg.terminal_kind s hs]

theorem Formed.not_isTerminal {g : Grammar ρ} (hg : g.Formed) (hs : s ∈ g.nonterminals) :
    s.isTerminal = false := by
  simp [Symbol.isTerminal, Symbol.isNonterminal, hg.nonterminal_kind s hs]

/-! ### What the operations do -/

section

variable {g g' : Grammar ρ} {s head : Symbol} {name text : String} {t : Term ρ}
  {ps : List (Production ρ)} {p : Production ρ}

/-- A property that declaring a symbol keeps. -/
structure Stable (P : Grammar ρ → Prop) : Prop where
  terminal : ∀ {g name}, P g → Text.Trimmed name → P (g.pushTerminal name).2
  nonterminal : ∀ {g name}, P g → Text.Trimmed name → P (g.pushNonterminal name).2
  start : ∀ {g name}, P g → Text.Trimmed name → P (g.pushStart name).2

namespace Stable

variable {P : Grammar ρ → Prop}

theorem of_terminal (hP : Stable P) (h : g.terminal name = .ok (s, g')) (hg : P g) : P g' := by
  unfold Grammar.terminal at h
  cases hname : (Text.trim name).isEmpty with
  | true => simp [hname] at h
  | false =>
    simp only [hname, Bool.false_eq_true, if_false, Except.ok.injEq] at h
    have := hP.terminal hg (Text.trimmed_trim hname)
    rwa [h] at this

theorem of_nonterminal (hP : Stable P) (h : g.nonterminal name isStart = .ok (s, g')) (hg : P g) :
    P g' := by
  unfold Grammar.nonterminal at h
  cases hname : (Text.trim name).isEmpty with
  | true => simp [hname] at h
  | false =>
    simp only [hname, Bool.false_eq_true, if_false] at h
    split at h
    · split at h
      · cases h
      · have := hP.start hg (Text.trimmed_trim hname)
        rwa [Except.ok.inj h] at this
    · have := hP.nonterminal hg (Text.trimmed_trim hname)
      rwa [Except.ok.inj h] at this

theorem foldl_push {push : Grammar ρ → String → Symbol × Grammar ρ}
    (hpush : ∀ {g : Grammar ρ} {name}, P g → Text.Trimmed name → P (push g name).2)
      {ws : List String} (hg : P g)
    (ss : List Symbol) (hws : ∀ w ∈ ws, Text.Trimmed w) :
    P (ws.foldl (fun (ss, g) name => let (s, g) := push g name; (ss ++ [s], g)) (ss, g)).2 := by
  induction ws generalizing g ss with
  | nil => exact hg
  | cons w ws ih =>
    exact ih (hpush hg (hws w (.head _))) _ fun v hv => hws v (.tail w hv)

theorem terminalsOf (hP : Stable P) (hg : P g) : P (g.terminalsOf text).2 :=
  foldl_push (fun h => hP.terminal h) hg [] Text.trimmed_of_mem_words

theorem nonterminalsOf (hP : Stable P) (hg : P g) : P (g.nonterminalsOf text).2 :=
  foldl_push (fun h => hP.nonterminal h) hg [] Text.trimmed_of_mem_words

end Stable

theorem same_of_hasSame (h : hasSame p ps = .ok false) : ∀ q ∈ ps, q.same p = .ok false := by
  induction ps with
  | nil => simp
  | cons q ps ih =>
    rw [hasSame] at h
    cases hq : q.same p with
    | error e => rw [hq] at h; cases h
    | ok b =>
      rw [hq] at h
      cases b with
      | true => cases h
      | false =>
        simp only [List.mem_cons, forall_eq_or_imp]
        exact ⟨hq, ih h⟩

theorem hasSame_eq_false (h : ∀ q ∈ ps, q.same p = .ok false) : hasSame p ps = .ok false := by
  induction ps with
  | nil => rfl
  | cons q ps ih =>
    rw [hasSame, h q (.head _)]
    exact ih fun q' hq' => h q' (.tail q hq')

theorem filed_setLedger (g : Grammar ρ) (n : Nat) (l : Ledger ρ) :
    (g.setLedger n l).filed = g.filed := by
  unfold setLedger
  split <;> rfl

theorem addProduction_cases (h : g.addProduction p = .ok g') :
    ∃ l, Ledger.accept (g.ledgerOf p.head.generation) p = .ok l ∧
      (g' = g.setLedger p.head.generation l ∨
      (∀ q ∈ g.filed, q.same p = .ok false) ∧
        g' = { g.setLedger p.head.generation
          { l with productions := l.productions ++ [p] } with filed := g.filed ++ [p] }) := by
  rw [Grammar.addProduction] at h
  cases hl : Ledger.accept (g.ledgerOf p.head.generation) p with
  | error e => rw [hl] at h; cases h
  | ok l =>
    rw [hl] at h
    refine ⟨l, rfl, ?_⟩
    simp only [bind, Except.bind] at h
    cases hsame : hasSame p (g.productionsOf p.head) with
    | error e => rw [hsame] at h; cases h
    | ok b =>
      rw [hsame] at h
      cases b with
      | true => cases h; exact .inl rfl
      | false =>
        cases h
        refine .inr ⟨fun q hq => ?_, by simp only [filed_setLedger]⟩
        by_cases hhead : q.head = p.head
        · exact same_of_hasSame hsame q (List.mem_filter.mpr ⟨hq, by simpa using hhead⟩)
        · rw [Production.same, if_neg (by simpa using hhead)]

theorem Ledger.accept_of_form (h : l.productions = [] ∨ l.attributed = some p.isAttributed) :
    Ledger.accept l p = .ok { l with attributed := some p.isAttributed } := by
  rcases h with h | h
  · simp [Ledger.accept, h]
  · simp [Ledger.accept, h]

theorem addProduction_new (hgen : p.head.generation = g.earlier.length)
    (hform : g.productions = [] ∨ g.ledger.attributed = some p.isAttributed)
      (hnew : ∀ q ∈ g.filed, q.same p = .ok false) :
    g.addProduction p = .ok { g with
      ledger := { attributed := some p.isAttributed, productions := g.productions ++ [p] }
      filed := g.filed ++ [p] } := by
  have hnone : hasSame p (g.productionsOf p.head) = .ok false :=
    hasSame_eq_false fun q hq => hnew q (List.mem_of_mem_filter hq)
  simp [Grammar.addProduction, ledgerOf, setLedger, hgen, Ledger.accept_of_form hform, hnone,
    productions, bind, Except.bind, pure,
    Except.pure]

theorem of_productionOfTuple (h : productionOfTuple head parts = .ok p) :
    p.head = head ∧ ∀ s, p.body.toTerm.Occurs s → (Term.tuple parts).Occurs s := by
  match parts with
  | [] | [_] => cases h
  | body :: rule :: rules =>
    rw [productionOfTuple] at h
    · cases hn : body.length with
      | error e => rw [hn] at h; cases h
      | ok n =>
        rw [hn] at h
        simp only [bind, Except.bind] at h
        generalize List.map slotOf (rule :: rules) ++
          (if (rule :: rules).length == 1 then List.replicate n none else []) = slots at h
        split at h
        · cases h
        · cases body with
          | symbol a =>
            cases h
            refine ⟨rfl, fun s hs => .tuple (.head _) ?_⟩
            rw [List.mem_singleton.mp (Term.occurs_ofSymbols.mp hs)]
            exact .symbol
          | epsilon | sentence parts =>
            cases h
            refine ⟨rfl, fun s hs => .tuple (.head _) ?_⟩
            rwa [Body.toTerm_ofTerm] at hs
          | _ => cases h
    · simp

theorem of_mem_productionsFor (h : productionsFor head t = .ok ps) (hp : p ∈ ps) :
    p.head = head ∧ ∀ s, p.body.toTerm.Occurs s → t.Occurs s := by
  cases t with
  | symbol a =>
    cases h
    rw [List.mem_singleton.mp hp]
    refine ⟨rfl, fun s hs => ?_⟩
    rw [List.mem_singleton.mp (Term.occurs_ofSymbols.mp hs)]
    exact .symbol
  | epsilon | sentence parts =>
    cases h
    rw [List.mem_singleton.mp hp, Body.toTerm_ofTerm]
    exact ⟨rfl, fun _ hs => hs⟩
  | choice items =>
    cases h
    obtain ⟨t, ht, rfl⟩ := List.mem_map.mp hp
    exact ⟨rfl, fun s hs => .choice ht (Body.toTerm_ofTerm t ▸ hs)⟩
  | tuple parts =>
    rw [productionsFor] at h
    cases hq : productionOfTuple head parts with
    | error e => rw [hq] at h; cases h
    | ok q =>
      rw [hq] at h
      cases h
      rw [List.mem_singleton.mp hp]
      exact of_productionOfTuple hq
  | value d | rule r => cases h

/-- What every added production keeps is kept when right sides are added, all or some of them. -/
theorem extend_induction {P : Grammar ρ → Prop} (hg : P g)
    (hadd : ∀ (g g' : Grammar ρ) (p : Production ρ), P g → p.head = head →
      (∀ s, p.body.toTerm.Occurs s → t.Occurs s) → g.addProduction p = .ok g' →
        P g') : P (g.extend head t).1 := by
  unfold Grammar.extend
  split
  · split
    · exact hg
    · rename_i ps hps
      have hof := fun p hp => of_mem_productionsFor (p := p) hps hp
      clear hps
      induction ps generalizing g with
      | nil => exact hg
      | cons p ps ih =>
        rw [Grammar.addProductions]
        obtain ⟨hhead, hoccurs⟩ := hof p (.head _)
        cases h : g.addProduction p with
        | error e => exact hg
        | ok g' => exact ih (hadd g g' p hg hhead hoccurs h) fun q hq => hof q (.tail p hq)
  · exact hg

end

namespace WF

variable {g g' : Grammar ρ} {s t : Symbol} {name text : String}

theorem empty (n : Nat) : (({ endMark := Symbol.endMark n } : Grammar ρ)).WF := by
  constructor <;> simp [Grammar.symbols, Symbol.endMark, Grammar.productions]

theorem eq_of_id (hg : g.WF) (hs : s ∈ g.symbols) (ht : t ∈ g.symbols) (h : s.id = t.id) : s = t :=
  List.inj_on_of_nodup_map hg.id_nodup hs ht h

theorem nodup (hg : g.WF) : g.symbols.Nodup := .of_map _ hg.id_nodup

theorem declared_nodup (hg : g.WF) : (g.terminals ++ g.nonterminals).Nodup :=
  (List.nodup_cons.mp hg.nodup).2

theorem formed (hg : g.WF) : g.Formed :=
  { hg with declared_nodup := hg.declared_nodup, head_mem := fun p hp =>
    hg.head_mem p (hg.filed_eq ▸ hp) }

theorem isTerminal (hg : g.WF) (hs : s ∈ g.terminals) : s.isTerminal = true :=
  hg.formed.isTerminal hs

theorem endMark_isTerminal (hg : g.WF) : g.endMark.isTerminal = true := by
  simp [Symbol.isTerminal, Symbol.isNonterminal, hg.endMark_kind]

theorem isTerminal_of_ahead (hg : g.WF) (hs : s ∈ g.terminals ++ [g.endMark]) :
    s.isTerminal = true := by
  rcases List.mem_append.mp hs with hs | hs
  · exact hg.isTerminal hs
  · exact List.mem_singleton.mp hs ▸ hg.endMark_isTerminal

theorem headsNonterminal (hg : g.WF) : g.HeadsNonterminal := by
  intro p hp
  have hkind := hg.nonterminal_kind _ (hg.head_mem p (hg.filed_eq ▸ hp))
  simp [Symbol.isNonterminal, hkind]

theorem id_notMem (hg : g.WF) : g.nextId ∉ g.symbols.map (·.id) := by
  intro h
  obtain ⟨s, hs, he⟩ := List.mem_map.mp h
  exact Nat.lt_irrefl _ (he ▸ hg.id_lt s hs)

theorem ids_push (hg : g.WF) (hperm : g'.symbols.Perm (s :: g.symbols)) (hs : s.id = g.nextId)
    (hnext : g'.nextId = g.nextId + 1) :
    (∀ t ∈ g'.symbols, t.id < g'.nextId) ∧ (g'.symbols.map (·.id)).Nodup := by
  constructor
  · intro t ht
    rw [hnext]
    rcases List.mem_cons.mp (hperm.mem_iff.mp ht) with rfl | ht
    · exact hs ▸ Nat.lt_succ_self _
    · exact Nat.lt_succ_of_lt (hg.id_lt t ht)
  · rw [(hperm.map (·.id)).nodup_iff, List.map_cons, List.nodup_cons, hs]
    exact ⟨hg.id_notMem, hg.id_nodup⟩

theorem pushTerminal (hg : g.WF) (hname : name.isEmpty = false) : (g.pushTerminal name).2.WF := by
  have hperm : (g.pushTerminal name).2.symbols.Perm (g.nextSymbol name .terminal :: g.symbols) := by
    simp only [Grammar.symbols, Grammar.pushTerminal, List.append_assoc, List.singleton_append]
    exact (List.perm_middle.cons _).trans (.swap ..)
  obtain ⟨hlt, hnodup⟩ := hg.ids_push hperm rfl rfl
  refine { hg with id_lt := hlt, id_nodup := hnodup, terminal_kind := ?_, name_ne := ?_ }
  · intro s hs
    rcases List.mem_append.mp hs with hs | hs
    · exact hg.terminal_kind s hs
    · rw [List.mem_singleton.mp hs]; rfl
  · intro s hs
    simp only [Grammar.pushTerminal, List.mem_append, List.mem_singleton] at hs
    rcases hs with (hs | rfl) | hs
    · exact hg.name_ne s (List.mem_append_left _ hs)
    · exact hname
    · exact hg.name_ne s (List.mem_append_right _ hs)

theorem push_nonterminal
    (hg : g.WF) (hname : name.isEmpty = false)
    (hg' : g' = { g with
      nextId := g.nextId + 1
      nonterminals := nts
      start := first
      names := table })
    (hnts : nts.Perm (g.nextSymbol name .nonterminal :: g.nonterminals))
    (hfirst : ∀ s, first = some s → s ∈ nts) : g'.WF := by
  have hperm : g'.symbols.Perm (g.nextSymbol name .nonterminal :: g.symbols) := by
    subst hg'
    simp only [Grammar.symbols]
    exact ((hnts.append_left g.terminals).trans List.perm_middle).cons _ |>.trans (.swap ..)
  obtain ⟨hlt, hnodup⟩ := hg.ids_push hperm rfl (by rw [hg'])
  subst hg'
  refine { hg with
    id_lt := hlt, id_nodup := hnodup, start_mem := hfirst,
    nonterminal_kind := ?_, name_ne := ?_, head_mem := ?_ }
  · intro s hs
    rcases List.mem_cons.mp (hnts.mem_iff.mp hs) with rfl | hs
    · rfl
    · exact hg.nonterminal_kind s hs
  · intro s hs
    rcases List.mem_append.mp hs with hs | hs
    · exact hg.name_ne s (List.mem_append_left _ hs)
    rcases List.mem_cons.mp (hnts.mem_iff.mp hs) with rfl | hs
    · exact hname
    · exact hg.name_ne s (List.mem_append_right _ hs)
  · intro p hp
    exact hnts.mem_iff.mpr (.tail _ (hg.head_mem p hp))

theorem pushNonterminal (hg : g.WF) (hname : name.isEmpty = false) :
    (g.pushNonterminal name).2.WF := by
  have hnts := List.perm_append_singleton (g.nextSymbol name .nonterminal) g.nonterminals
  exact hg.push_nonterminal hname rfl hnts fun s hs => List.mem_append_left _ (hg.start_mem s hs)

theorem pushStart (hg : g.WF) (hname : name.isEmpty = false) : (g.pushStart name).2.WF := by
  refine hg.push_nonterminal hname rfl (.refl _) fun s hs => ?_
  exact Option.some.inj hs ▸ (.head _)

theorem copy (hg : g.WF) : g.copy.WF := { hg with }

/-- A production of a nonterminal that the grammar declared itself is filed in both records, unless
there is an equal one. -/
theorem addProduction_eq (hgen : p.head.generation = g.earlier.length)
    (h : g.addProduction p = .ok g') :
    ∃ l, Ledger.accept g.ledger p = .ok l ∧ (g' = { g with ledger := l } ∨
      g' = { g with
        ledger := { l with productions := l.productions ++ [p] }
        filed := g.filed ++ [p] }) := by
  have hledger : g.ledgerOf p.head.generation = g.ledger := by simp [ledgerOf, hgen]
  have hset : ∀ l, g.setLedger p.head.generation l = { g with ledger := l } := by
    intro l; simp [setLedger, hgen]
  obtain ⟨l, hl, hg'⟩ := addProduction_cases h
  rw [hledger] at hl
  rw [hset, hset] at hg'
  exact ⟨l, hl, hg'.imp_right And.right⟩

theorem accept_eq (h : Ledger.accept l p = .ok l') :
    l'.productions = l.productions ∧ l'.attributed = some p.isAttributed ∧
      (l.productions = [] ∨ l'.attributed = l.attributed) := by
  unfold Ledger.accept at h
  cases hps : l.productions with
  | nil =>
    simp only [hps, List.isEmpty_nil, if_true, beq_self_eq_true, Except.ok.injEq] at h
    subst h
    exact ⟨rfl, rfl, .inl rfl⟩
  | cons q qs =>
    by_cases hatt : l.attributed = some p.isAttributed
    · simp only [hps, List.isEmpty_cons, Bool.false_eq_true, if_false, hatt, beq_self_eq_true,
        if_true,
        Except.ok.injEq] at h
      subst h
      exact ⟨rfl, rfl, .inr hatt.symm⟩
    · simp [hps, hatt] at h

theorem addProduction (hg : g.WF) (hhead : p.head ∈ g.nonterminals)
    (hgen : p.head.generation = g.earlier.length) (h : g.addProduction p = .ok g') : g'.WF := by
  obtain ⟨l, hl, hg'⟩ := addProduction_eq hgen h
  obtain ⟨hps, hatt, hor⟩ := accept_eq hl
  have hold : ∀ q ∈ g.ledger.productions, l.attributed = some q.isAttributed := by
    intro q hq
    rcases hor with hnil | hsame
    · rw [hnil] at hq; cases hq
    · rw [hsame]; exact hg.attributed q hq
  rcases hg' with rfl | rfl
  · refine { hg with filed_eq := hps.trans hg.filed_eq, attributed := ?_ }
    intro q hq
    exact hold q (hps ▸ hq)
  · refine { hg with filed_eq := ?_, head_mem := ?_, attributed := ?_ }
    · intro q hq
      rcases List.mem_append.mp hq with hq | hq
      · exact hg.head_mem q hq
      · rw [List.mem_singleton.mp hq]; exact hhead
    · exact congrArg (· ++ [p]) (hps.trans hg.filed_eq)
    · intro q hq
      rcases List.mem_append.mp hq with hq | hq
      · exact hold q (hps ▸ hq)
      · rw [List.mem_singleton.mp hq]; exact hatt

theorem extend {t : Term ρ} (hg : g.WF) (hhead : head ∈ g.nonterminals)
    (hgen : head.generation = g.earlier.length) : (g.extend head t).1.WF := by
  refine (extend_induction (P := fun g => g.WF ∧ head ∈ g.nonterminals ∧
    head.generation = g.earlier.length)
    ⟨hg, hhead, hgen⟩ ?_).1
  rintro g g' p ⟨hg, hhead, hgen⟩ rfl - h
  refine ⟨hg.addProduction hhead hgen h, ?_⟩
  obtain ⟨l, -, rfl | rfl⟩ := addProduction_eq hgen h <;> exact ⟨hhead, hgen⟩

theorem stable : Stable (WF : Grammar ρ → Prop) :=
  ⟨fun hg h => hg.pushTerminal h.ne_empty, fun hg h => hg.pushNonterminal h.ne_empty, fun hg h =>
    hg.pushStart h.ne_empty⟩

end WF

theorem Built.wf {g : Grammar ρ} (h : g.Built) : g.WF := by
  induction h with
  | empty n => exact .empty n
  | terminal _ h ih => exact WF.stable.of_terminal h ih
  | nonterminal _ h ih => exact WF.stable.of_nonterminal h ih
  | terminals _ ih => exact WF.stable.terminalsOf ih
  | nonterminals _ ih => exact WF.stable.nonterminalsOf ih
  | extend _ hhead hgen ih => exact ih.extend hhead hgen
  | copy _ ih => exact ih.copy

/-- The grammars that parsers are made for: the right sides are words of declared symbols, the
symbols have different names, and there is a start symbol. -/
structure Proper (g : Grammar ρ) (start : Symbol) : Prop where
  built : g.Built
  plain : g.Plain
  names_nodup : ((g.terminals ++ g.nonterminals).map (·.name)).Nodup
  start_eq : g.start = some start

theorem Proper.live {g : Grammar ρ} {start : Symbol} (hg : g.Proper start)
    (h : ∀ s ∈ g.nonterminals, ∃ x, g.Generates s x) : g.Live := by
  intro p u a v hp _ s hs
  obtain ⟨w, hw, hmem⟩ := hg.plain p hp.1
  cases hw.symm.trans hp.2
  rcases List.mem_append.mp (hmem s (by simp [hs])) with hs | hs
  · exact .inr ⟨s, .terminal (hg.built.wf.isTerminal hs)⟩
  · obtain ⟨x, hx⟩ := h s hs
    obtain ⟨ps, hps⟩ := (generates_iff_spells hg.built.wf.headsNonterminal).mp hx
    exact hps.nullable_or_begins

theorem Proper.start_mem {g : Grammar ρ} {start : Symbol} (hg : g.Proper start) :
    start ∈ g.nonterminals :=
  hg.built.wf.start_mem start hg.start_eq

end Grammar

end AutoCool
