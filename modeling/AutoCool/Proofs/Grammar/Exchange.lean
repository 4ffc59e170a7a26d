import AutoCool.Grammar.Exchange
import AutoCool.Proofs.Grammar.Operations
import AutoCool.Proofs.Text.Json

/-!
# Exchanged grammars

A grammar whose symbols have different names and whose right sides are words is read back from its
text with the same names, unless one of the right sides is empty (`Grammar.Made.ofJson_toJson`).
-/

namespace AutoCool.Grammar

variable {ρ : Type} {g g' : Grammar ρ} {p q : Production ρ} {s : Symbol} {u w : List Symbol}
  {name : String}

/-! ### What holds of every grammar -/

/-- The grammars that operations, copies and new start symbols make. -/
inductive Made : Grammar ρ → Prop
  | empty (n : Nat) : Made { endMark := Symbol.endMark n }
  | step {g : Grammar ρ} (o : Operation ρ) : Made g → o.Over g → Made (o.run g)
  | copy {g : Grammar ρ} : Made g → Made g.copy
  | augmented {g g' : Grammar ρ} {force : Bool} : Made g → g.augmented force = .ok g' → Made g'

/-- The invariant of these grammars. A copy may lack productions that are filed with the grammar it
was made from. -/
structure Consistent (g : Grammar ρ) : Prop where
  distinct : g.Distinct
  sublist : g.productions.Sublist g.filed
  head_mem : ∀ p ∈ g.filed, p.head ∈ g.nonterminals
  trimmed : ∀ s ∈ g.terminals ++ g.nonterminals, Text.Trimmed s.name

theorem Consistent.addProduction (hg : g.Consistent) (hhead : p.head ∈ g.nonterminals)
    (h : g.addProduction p = .ok g') : g'.Consistent := by
  have hdistinct := hg.distinct.addProduction h
  have hmem : ∀ q ∈ g.filed ++ [p], q.head ∈ g.nonterminals := fun q hq =>
    (List.mem_append.mp hq).elim (hg.head_mem q) fun hq => List.mem_singleton.mp hq ▸ hhead
  obtain ⟨l, hl, hg'⟩ := addProduction_cases h
  by_cases hgen : p.head.generation < g.earlier.length
  · rw [setLedger, setLedger, if_pos hgen, if_pos hgen] at hg'
    rcases hg' with rfl | ⟨-, rfl⟩
    · exact { hg with distinct := hdistinct }
    · exact { hg with
        distinct := hdistinct
        sublist := hg.sublist.trans (List.sublist_append_left _ _)
        head_mem := hmem }
  · have hsub : l.productions.Sublist g.filed := by
      rw [(WF.accept_eq hl).1, ledgerOf, List.getD_eq_getElem?_getD,
        List.getElem?_eq_none (by omega)]
      exact hg.sublist
    rw [setLedger, setLedger, if_neg hgen, if_neg hgen] at hg'
    rcases hg' with rfl | ⟨-, rfl⟩
    · exact { hg with distinct := hdistinct, sublist := hsub }
    · exact { hg with
        distinct := hdistinct
        sublist := hsub.append_right [p]
        head_mem := hmem }

theorem Consistent.durable : Durable (Consistent : Grammar ρ → Prop) where
  terminal {g name} hg hname := { hg with
    trimmed := by
      intro s hs
      simp only [pushTerminal, List.mem_append, List.mem_singleton] at hs
      rcases hs with (hs | rfl) | hs
      · exact hg.trimmed s (List.mem_append_left _ hs)
      · exact hname
      · exact hg.trimmed s (List.mem_append_right _ hs) }
  nonterminal {g name} hg hname := { hg with
    head_mem := fun p hp => List.mem_append_left _ (hg.head_mem p hp)
    trimmed := by
      intro s hs
      rcases List.mem_append.mp (List.append_assoc .. ▸ hs) with hs | hs
      · exact hg.trimmed s hs
      · exact List.mem_singleton.mp hs ▸ hname }
  start {g name} hg hname := { hg with
    head_mem := fun p hp => .tail _ (hg.head_mem p hp)
    trimmed := by
      intro s hs
      rcases List.mem_cons.mp (List.perm_middle.mem_iff.mp hs) with rfl | hs
      · exact hname
      · exact hg.trimmed s hs }
  add hg hhead _ h := hg.addProduction hhead h

theorem Made.consistent (h : g.Made) : g.Consistent := by
  induction h with
  | empty n => exact ⟨.nil, .slnil, by simp, by simp⟩
  | step o _ ho ih => exact Consistent.durable.run o ho ih
  | copy _ ih => exact { ih with }
  | @augmented g g' force _ h ih =>
    have hcopy : g.copy.Consistent := { ih with }
    rw [Grammar.augmented] at h
    split at h
    · rw [augment] at h
      cases hs : g.start with
      | none => rw [hs] at h; cases h
      | some start =>
        rw [hs] at h
        exact (Consistent.durable.start hcopy ⟨by decide, by decide⟩).addProduction (.head _) h
    · cases h
      exact hcopy

/-! ### Writing -/

/-- The names in a production: that of its head and those of its right side. -/
def spelled (p : Production ρ) : String × List String :=
  (p.head.name, (p.body.word?.getD []).map (·.name))

/-- What a grammar is written as. -/
def datumOf (nonterminals terminals : List String) (productions : List (String × List String)) :
    Datum :=
  .record [
    ("NonTerminals", .list (nonterminals.map .text)),
    ("Terminals", .list (terminals.map .text)),
    ("Productions", .list (productions.map fun p =>
      .record [("Head", .text p.1), ("Body", .list (p.2.map .text))]))]

theorem mapM_eq_ok {α β : Type} {f : α → Except ε β} {h : α → β} {l : List α}
    (hf : ∀ x ∈ l, f x = .ok (h x)) : l.mapM f = .ok (l.map h) := by
  induction l with
  | nil => rfl
  | cons x l ih =>
    obtain ⟨hx, hl⟩ := List.forall_mem_cons.mp hf
    rw [List.mapM_cons, hx, ih hl]
    rfl

theorem productionDatum_eq (h : p.body.word? = some w) : productionDatum p =
    .ok (.record [("Head", .text (spelled p).1), ("Body", .list ((spelled p).2.map .text))]) := by
  have hname : ∀ w : List Symbol, (w.map Term.symbol : List (Term ρ)).mapM Term.name = .ok
      (w.map (·.name)) := fun w => by
    rw [List.mapM_map]
    exact mapM_eq_ok fun _ _ => rfl
  rw [productionDatum, spelled, h, Option.getD_some]
  cases hb : p.body with
  | epsilon =>
    rw [hb] at h
    cases h
    rfl
  | sentence v =>
    rw [hb] at h
    cases h
    simp only [Body.toTerm, Term.ofSymbols, Term.elements, bind, Except.bind, hname]
    rfl
  | stray t =>
    rw [hb] at h
    cases h

theorem toDatum_eq (hwords : ∀ p ∈ g.productions, ∃ w, p.body.word? = some w) :
    g.toDatum = .ok (datumOf (g.nonterminals.map (·.name)) (g.terminals.map (·.name))
      (g.productions.map spelled)) := by
  have hps : g.productions.mapM productionDatum = .ok (g.productions.map fun p =>
      .record [("Head", .text (spelled p).1), ("Body", .list ((spelled p).2.map .text))]) :=
    mapM_eq_ok fun p hp => (hwords p hp).elim fun _ => productionDatum_eq
  rw [toDatum, hps]
  simp only [bind, Except.bind, pure, Except.pure, datumOf, List.map_map]
  rfl

/-! ### Reading the symbols -/

/-- What is known when some symbols were read: their names, and what these stand for. -/
structure Declares (ts ns : List String) (g : Grammar ρ) (names : Meanings ρ) : Prop where
  settled : g.Settled
  terminals : g.terminals.map (·.name) = ts
  nonterminals : g.nonterminals.map (·.name) = ns
  start : g.start = g.nonterminals.head?
  fresh : g.productions = []
  means : ∀ s ∈ g.terminals ++ g.nonterminals, names.lookup s.name = some (.symbol s)

variable {names : Meanings ρ} {ts ns ws : List String}

theorem Declares.push (h : Declares ts ns g names) (hnew : s.name ∉ ts ++ ns)
    (hsettled : g'.Settled) (hts : g'.terminals.map (·.name) = ts')
    (hns : g'.nonterminals.map (·.name) = ns') (hstart : g'.start = g'.nonterminals.head?)
    (hfresh : g'.productions = g.productions)
    (hmem : ∀ t ∈ g'.terminals ++ g'.nonterminals, t = s ∨ t ∈ g.terminals ++ g.nonterminals) :
    Declares ts' ns' g' ((s.name, .symbol s) :: names) := by
  refine ⟨hsettled, hts, hns, hstart, hfresh.trans h.fresh, fun t ht => ?_⟩
  rcases hmem t ht with rfl | ht
  · exact List.lookup_cons_self
  · have hne : t.name ≠ s.name := by
      rintro heq
      rw [← h.terminals, ← h.nonterminals, ← List.map_append] at hnew
      exact hnew (heq ▸ List.mem_map_of_mem ht)
    rw [List.lookup_cons, beq_eq_false_iff_ne.mpr hne]
    exact h.means t ht

theorem Declares.terminal (h : Declares ts [] g names) (hname : Text.Trimmed name)
    (hnew : name ∉ ts) :
    ∃ s g', g.terminal name = .ok (s, g') ∧
    Declares (ts ++ [name]) [] g' ((name, .symbol s) :: names) := by
  have hsettled := Settled.durable.terminal h.settled hname
  refine ⟨_, _, by rw [Grammar.terminal, hname.trim_eq,
    hname.ne_empty]; rfl, h.push (s := g.nextSymbol name .terminal)
    (by rwa [List.append_nil]) hsettled ?_ h.nonterminals h.start rfl fun t ht => ?_⟩
  · rw [← h.terminals]
    exact List.map_append
  · simp only [pushTerminal, List.mem_append, List.mem_singleton] at ht ⊢
    tauto

theorem Declares.nonterminal (h : Declares ts ns g names) (hname : Text.Trimmed name)
    (hnew : name ∉ ts ++ ns) :
    ∃ s g', g.nonterminal name ns.isEmpty = .ok (s, g') ∧
    Declares ts (ns ++ [name]) g' ((name, .symbol s) :: names) := by
  cases ns with
  | nil =>
    have hns : g.nonterminals = [] := List.map_eq_nil_iff.mp h.nonterminals
    refine ⟨_, _, ?_, h.push (s := g.nextSymbol name .nonterminal) hnew
      (Settled.durable.start h.settled hname) h.terminals ?_
      rfl rfl fun t ht => ?_⟩
    · rw [Grammar.nonterminal, hname.trim_eq, hname.ne_empty, h.start, hns]
      rfl
    · simp [hns, nextSymbol, pushStart]
    · simp only [pushStart, List.mem_append, List.mem_cons] at ht ⊢
      tauto
  | cons n ns =>
    obtain ⟨first, rest, hfirst⟩ := List.map_eq_cons_iff.mp h.nonterminals
    refine ⟨_, _, ?_, h.push (s := g.nextSymbol name .nonterminal) hnew
      (Settled.durable.nonterminal h.settled hname) h.terminals ?_
      ?_ rfl fun t ht => ?_⟩
    · rw [Grammar.nonterminal, hname.trim_eq, hname.ne_empty]
      rfl
    · rw [← h.nonterminals]
      exact List.map_append
    · rw [pushNonterminal, h.start, hfirst.1]
      rfl
    · simp only [pushNonterminal, List.mem_append, List.mem_singleton] at ht ⊢
      tauto

theorem foldlM_readSymbol (declare : Grammar ρ → String → Except GrammarError (Symbol × Grammar ρ))
    {I : List String → Grammar ρ → Meanings ρ → Prop} (before : List String)
    (hstep : ∀ {ws g names name}, I ws g names → Text.Trimmed name → name ∉ before ++ ws →
      ∃ s g', declare g name = .ok (s, g') ∧ I (ws ++ [name]) g' ((name, .symbol s) :: names))
    (h : I ws g names) (hvs : ∀ v ∈ vs, Text.Trimmed v) (hnodup : (before ++ ws ++ vs).Nodup) :
    ∃ g' names', (vs.map Datum.text).foldlM (readSymbol declare) (g, names) = .ok (g', names') ∧
      I (ws ++ vs) g' names' := by
  induction vs generalizing ws g names with
  | nil => exact ⟨g, names, rfl, by rwa [List.append_nil]⟩
  | cons v vs ih =>
    obtain ⟨hv, hvs⟩ := List.forall_mem_cons.mp hvs
    have hnew : v ∉ before ++ ws := fun hmem => (List.nodup_append.mp hnodup).2.2 v hmem v
        (.head _) rfl
    obtain ⟨s, g', hdeclare, hI⟩ := hstep h hv hnew
    obtain ⟨g'', names', hfold, hI'⟩ := ih hI hvs (by simpa using hnodup)
    refine ⟨g'', names', ?_, by simpa using hI'⟩
    rw [List.map_cons, List.foldlM_cons, readSymbol, hdeclare]
    exact hfold

theorem ofDatum_datumOf (hnames : ∀ v ∈ ts ++ ns, Text.Trimmed v) (hnodup : (ts ++ ns).Nodup)
    (n : Nat)
    (ps : List (String × List String)) : ∃ (g : Grammar ρ) (names : Meanings ρ),
      Declares ts ns g names ∧ ofDatum (datumOf ns ts ps) n =
      (ps.map fun p => Datum.record [("Head", .text p.1), ("Body", .list (p.2.map .text))]).foldlM
        (readProduction names) g := by
  obtain ⟨hts, hns⟩ := List.forall_mem_append.mp hnames
  have hempty : Declares [] [] ({ endMark := Symbol.endMark n } : Grammar ρ)
      [(Term.epsilonName, .epsilon)] :=
    ⟨.empty n, rfl, rfl, rfl, rfl, by simp⟩
  obtain ⟨g1, names1, hfold1, h1⟩ := foldlM_readSymbol Grammar.terminal
      (I := fun ws g names => Declares ws [] g names) []
    Declares.terminal hempty hts (List.nodup_append.mp hnodup).1
  have hfields : field (datumOf ns ts ps) "Terminals" = .ok (.list (ts.map .text)) ∧
      field (datumOf ns ts ps) "NonTerminals" = .ok (.list (ns.map .text)) ∧
      field (datumOf ns ts ps) "Productions" = .ok (.list (ps.map fun p =>
        .record [("Head", .text p.1), ("Body", .list (p.2.map .text))])) := ⟨rfl, rfl, rfl⟩
  rw [ofDatum, hfields.1, hfields.2.1, hfields.2.2]
  simp only [bind, Except.bind, itemsOf, Datum.items?, Option.elim_some, hfold1]
  cases ns with
  | nil => exact ⟨g1, names1, h1, rfl⟩
  | cons v ns =>
    obtain ⟨hv, hns⟩ := List.forall_mem_cons.mp hns
    obtain ⟨s, g2, hg2, h2⟩ := h1.nonterminal hv fun hmem => by
      rw [List.append_nil] at hmem
      exact (List.nodup_append.mp hnodup).2.2 v hmem v (.head _) rfl
    obtain ⟨g3, names3, hfold3, -, h3⟩ := foldlM_readSymbol (fun g name => g.nonterminal name)
      (I := fun ns g names => ns.isEmpty = false ∧ Declares ts ns g names) ts
        (fun {ws g names name} h hname hnew => by
        obtain ⟨s, g', hg', h'⟩ := h.2.nonterminal hname hnew
        exact ⟨s, g', h.1 ▸ hg', by simp, h'⟩) ⟨rfl, h2⟩ hns (by simpa using hnodup)
    have hread : readSymbol (fun g name => g.nonterminal name true) (g1, names1) (.text v) = .ok
        (g2, (v, .symbol s) :: names1) := by
      rw [readSymbol, show g1.nonterminal v true = .ok (s, g2) from hg2]
      rfl
    refine ⟨g3, names3, h3, ?_⟩
    simp only [List.map_cons, hread, hfold3]

/-! ### Reading the productions -/

theorem Declares.word (h : Declares ts ns g names) (hvs : ∀ v ∈ vs, v ∈ ts ++ ns) :
    ∃ w : List Symbol, w.map (·.name) = vs ∧ ∀ s ∈ w, s ∈ g.terminals ++ g.nonterminals := by
  induction vs with
  | nil => exact ⟨[], rfl, by simp⟩
  | cons v vs ih =>
    obtain ⟨hv, hrest⟩ := List.forall_mem_cons.mp hvs
    rw [← h.terminals, ← h.nonterminals, ← List.map_append, List.mem_map] at hv
    obtain ⟨s, hs, rfl⟩ := hv
    obtain ⟨w, rfl, hw⟩ := ih hrest
    exact ⟨s :: w, rfl, List.forall_mem_cons.mpr ⟨hs, hw⟩⟩

theorem Declares.meaning_eq (h : Declares ts ns g names) (hs : s ∈ g.terminals ++ g.nonterminals) :
    meaning names (.text s.name) = .ok (.symbol s) := by
  rw [meaning, h.means s hs]
  rfl

theorem Declares.readBody_eq (h : Declares ts ns g names)
    (hw : ∀ t ∈ s :: w, t ∈ g.terminals ++ g.nonterminals) :
    ∃ t : Term ρ, readBody names (.list ((s :: w).map fun t => .text t.name)) = .ok t ∧
      ∀ head, productionsFor head t = .ok [{ head, body := .sentence (s :: w) }] := by
  have hfold : ∀ u w : List Symbol, (∀ t ∈ w, t ∈ g.terminals ++ g.nonterminals) →
      (w.map fun t => Datum.text t.name).foldlM
      (fun t name => do t.add (← meaning names name)) (Term.ofSymbols u : Term ρ) = .ok
        (.ofSymbols (u ++ w)) := by
    intro u w hw
    induction w generalizing u with
    | nil => rw [List.append_nil]; rfl
    | cons t w ih =>
      obtain ⟨ht, hw⟩ := List.forall_mem_cons.mp hw
      rw [List.map_cons, List.foldlM_cons, h.meaning_eq ht, List.append_cons, ← ih (u ++ [t]) hw]
      simp [Term.ofSymbols, bind, Except.bind, Term.add]
  obtain ⟨hs, hw⟩ := List.forall_mem_cons.mp hw
  rw [readBody, itemsOf, Datum.items?, List.map_cons]
  simp only [Option.elim_some, bind, Except.bind, h.meaning_eq hs]
  -- one symbol stays a symbol; the second one makes it a sentence
  cases w with
  | nil => exact ⟨.symbol s, rfl, fun _ => rfl⟩
  | cons t w =>
    obtain ⟨ht, hw⟩ := List.forall_mem_cons.mp hw
    refine ⟨.ofSymbols (s :: t :: w), ?_, fun head => ?_⟩
    · rw [List.map_cons, List.foldlM_cons, h.meaning_eq ht]
      exact hfold [s, t] w hw
    · rw [Term.ofSymbols, productionsFor, Body.ofTerm, Term.symbolsOf?_map_symbol]
      rfl

/-- What is known when some productions were read: their names, and that they are words of the
symbols read before. -/
structure Copies (g₀ : Grammar ρ) (ps : List (String × List String)) (g : Grammar ρ) : Prop where
  settled : g.Settled
  terminals : g.terminals = g₀.terminals
  nonterminals : g.nonterminals = g₀.nonterminals
  start : g.start = g₀.start
  productions : g.productions.map spelled = ps
  words : ∀ p ∈ g.productions, p.slots = none ∧ ∃ w, p.body = .sentence w ∧ ∀ s ∈ w,
    s ∈ g₀.terminals ++ g₀.nonterminals

variable {g₀ : Grammar ρ} {ps done : List (String × List String)} {v : String} {vs : List String}

theorem Declares.readProduction_nil (h : Declares ts ns g₀ names) (hv : v ∈ ns) :
    readProduction names g (.record [("Head", .text v), ("Body", .list [])]) =
      .error .outOfRange := by
  rw [← h.nonterminals, List.mem_map] at hv
  obtain ⟨s, hs, rfl⟩ := hv
  have hhead := h.meaning_eq (List.mem_append_right _ hs)
  simp [readProduction, field, readBody, itemsOf, Datum.items?, hhead, bind, Except.bind]
  rfl

theorem Copies.addProduction (h : Copies g₀ done g) (hhead : head ∈ g₀.nonterminals)
    (hw : ∀ s ∈ w, s ∈ g₀.terminals ++ g₀.nonterminals)
    (hnew : (head.name, w.map (·.name)) ∉ done) :
    ∃ g', g.addProduction { head, body := .sentence w } = .ok g' ∧
    Copies g₀ (done ++ [(head.name, w.map (·.name))]) g' := by
  have hmem : head ∈ g.nonterminals := h.nonterminals ▸ hhead
  have hgen : head.generation = g.earlier.length := by
    rw [h.settled.generation_eq head hmem, h.settled.earlier_eq, List.length_nil]
  have hform : g.productions = [] ∨ g.ledger.attributed = some false := by
    cases hps : g.productions with
    | nil => exact .inl rfl
    | cons q qs =>
      have hq : q ∈ g.productions := hps ▸ (.head _)
      rw [h.settled.wf.attributed q hq, Production.isAttributed, (h.words q hq).1]
      exact .inr rfl
  have hdiffers : ∀ q ∈ g.filed, q.same { head, body := .sentence w } = .ok false := by
    intro q hq
    rw [← h.settled.wf.filed_eq] at hq
    obtain ⟨-, u, hu, -⟩ := h.words q hq
    by_cases heq : q.head = head
    · rw [Production.same, heq, if_pos (beq_self_eq_true head), hu, Body.same_sentence,
        decide_eq_false]
      rintro rfl
      refine hnew (h.productions ▸ List.mem_map.mpr ⟨q, hq, ?_⟩)
      rw [spelled, hu, heq]
      rfl
    · rw [Production.same, if_neg (by simpa using heq)]
  have hadd := addProduction_new hgen hform hdiffers
  refine ⟨_, hadd, Settled.durable.add h.settled hmem (fun s hs => ?_) hadd, h.terminals,
    h.nonterminals, h.start, ?_, fun q hq => ?_⟩
  · have hs := hw s (Term.occurs_ofSymbols.mp hs)
    rw [← h.terminals, ← h.nonterminals] at hs
    exact h.settled.wf.id_lt s (.tail _ hs)
  · rw [← h.productions]
    exact List.map_append
  · rcases List.mem_append.mp hq with hq | hq
    · exact h.words q hq
    · exact List.mem_singleton.mp hq ▸ ⟨rfl, w, rfl, hw⟩

theorem Copies.readProduction (hd : Declares ts ns g₀ names) (h : Copies g₀ done g) (hv : v ∈ ns)
    (hne : vs ≠ [])
    (hvs : ∀ x ∈ vs, x ∈ ts ++ ns) (hnew : (v, vs) ∉ done) :
    ∃ g', Grammar.readProduction names g
      (.record [("Head", .text v), ("Body", .list (vs.map .text))]) = .ok g' ∧
      Copies g₀ (done ++ [(v, vs)]) g' := by
  rw [← hd.nonterminals, List.mem_map] at hv
  obtain ⟨head, hhead, rfl⟩ := hv
  obtain ⟨w, rfl, hw⟩ := hd.word hvs
  cases w with
  | nil => exact absurd rfl hne
  | cons s w =>
    obtain ⟨t, hread, hmakes⟩ := hd.readBody_eq hw
    obtain ⟨g', hadd, h'⟩ := h.addProduction hhead hw hnew
    have hkind : head.isNonterminal = true := by
      rw [Symbol.isNonterminal, h.settled.wf.nonterminal_kind head (h.nonterminals ▸ hhead)]
      rfl
    have hextend : g.extend head t = (g', none) := by
      rw [extend, if_pos hkind, hmakes head]
      simp only [addProductions, hadd]
    refine ⟨g', ?_, h'⟩
    rw [Grammar.readProduction, List.map_map]
    simp only [field, List.lookup_cons, beq_self_eq_true, Option.elim_some, bind, Except.bind,
      hd.meaning_eq (List.mem_append_right _ hhead), show ("Body" == "Head") = false from rfl,
        Function.comp_def, hread, hextend]
    rfl

/-- Productions are read one after the other, up to the first one with an empty right side. -/
theorem Copies.foldlM_readProduction (hd : Declares ts ns g₀ names) (h : Copies g₀ done g)
    (hps : ∀ p ∈ ps, p.1 ∈ ns ∧ ∀ x ∈ p.2, x ∈ ts ++ ns) (hnew : (done ++ ps).Pairwise fun q p =>
      p.2 ≠ [] → q ≠ p) :
    let result :=
      (ps.map fun p => Datum.record [("Head", .text p.1), ("Body", .list (p.2.map .text))]).foldlM
      (Grammar.readProduction names) g
    ((∃ p ∈ ps, p.2 = []) → result = .error .outOfRange) ∧
      ((∀ p ∈ ps, p.2 ≠ []) → ∃ g', result = .ok g' ∧ Copies g₀ (done ++ ps) g') := by
  induction ps generalizing done g with
  | nil => exact ⟨by simp, fun _ => ⟨g, rfl, by rwa [List.append_nil]⟩⟩
  | cons p ps ih =>
    obtain ⟨⟨hhead, hbody⟩, hps⟩ := List.forall_mem_cons.mp hps
    rw [List.map_cons, List.foldlM_cons]
    by_cases hempty : p.2 = []
    · rw [hempty, List.map_nil, hd.readProduction_nil hhead]
      exact ⟨fun _ => rfl, fun hne => absurd hempty (hne p (.head _))⟩
    · have hp : (p.1, p.2) ∉ done := fun hmem =>
        (List.pairwise_append.mp hnew).2.2 p hmem p (.head _) hempty rfl
      obtain ⟨g', hread, h'⟩ := h.readProduction hd hhead hempty hbody hp
      rw [hread, List.append_cons]
      rw [List.append_cons] at hnew
      obtain ⟨hfail, hsucceed⟩ := ih h' hps hnew
      refine ⟨?_, fun hne => hsucceed fun q hq => hne q (.tail _ hq)⟩
      rintro ⟨q, hq, hnil⟩
      rcases List.mem_cons.mp hq with rfl | hq
      · exact absurd hnil hempty
      · exact hfail ⟨q, hq, hnil⟩

/-! ### Round trip -/

theorem eq_of_map_eq {α β : Type} {f : α → β} {l u w : List α}
    (hf : ∀ ⦃x⦄, x ∈ l → ∀ ⦃y⦄, y ∈ l → f x = f y → x = y) (hu : ∀ x ∈ u, x ∈ l)
    (hw : ∀ x ∈ w, x ∈ l) (h : u.map f = w.map f) : u = w := by
  induction u generalizing w with
  | nil => exact (List.map_eq_nil_iff.mp h.symm).symm
  | cons x u ih =>
    obtain ⟨y, w, rfl, hxy, hmap⟩ := List.map_eq_cons_iff.mp h.symm
    rw [List.forall_mem_cons] at hu hw
    rw [hf hu.1 hw.1 hxy.symm, ih hu.2 hw.2 hmap.symm]

theorem Body.eq_sentence {b : Body ρ} (h : b.word? = some w) (hne : w ≠ []) : b = .sentence w := by
  cases b with
  | epsilon => cases h; exact absurd rfl hne
  | sentence v => cases h; rfl
  | stray t => cases h

/-- Where symbols have different names, different productions have different names too, empty right
sides apart. -/
theorem Consistent.spelled_pairwise (hg : g.Consistent)
    (hnames : ((g.terminals ++ g.nonterminals).map (·.name)).Nodup) (hplain : g.Plain) :
    (g.productions.map spelled).Pairwise fun q p => p.2 ≠ [] → q ≠ p := by
  have hinj := List.inj_on_of_nodup_map hnames
  have hhead : ∀ p ∈ g.productions, p.head ∈ g.terminals ++ g.nonterminals := fun p hp =>
    List.mem_append_right _ (hg.head_mem p (hg.sublist.mem hp))
  rw [List.pairwise_map]
  refine List.Pairwise.imp_of_mem (fun {q p} hq hp hsame hne heq => ?_)
    (hg.distinct.sublist hg.sublist)
  obtain ⟨u, hu, hmemu⟩ := hplain q hq
  obtain ⟨w, hw, hmemw⟩ := hplain p hp
  simp only [spelled, hu, hw, Option.getD_some, Prod.mk.injEq] at hne heq
  obtain rfl := eq_of_map_eq hinj hmemu hmemw heq.2
  have hne : u ≠ [] := fun h => hne (by rw [h]; rfl)
  rw [Production.same, hinj (hhead q hq) (hhead p hp) heq.1, if_pos (beq_self_eq_true _),
    Body.eq_sentence hu hne,
    Body.eq_sentence hw hne, Body.same_sentence, decide_eq_true rfl] at hsame
  cases hsame

theorem Consistent.spelled_mem (hg : g.Consistent) (hplain : g.Plain) :
    ∀ x ∈ g.productions.map spelled, x.1 ∈ g.nonterminals.map (·.name) ∧ ∀ v ∈ x.2,
    v ∈ g.terminals.map (·.name) ++ g.nonterminals.map (·.name) := by
  rw [List.forall_mem_map]
  intro p hp
  obtain ⟨w, hw, hmem⟩ := hplain p hp
  refine ⟨List.mem_map_of_mem (hg.head_mem p (hg.sublist.mem hp)), ?_⟩
  rw [spelled, hw, ← List.map_append]
  exact List.forall_mem_map.mpr fun s hs => List.mem_map_of_mem (hmem s hs)

/-- The symbols and the productions of a grammar have the names of those of another one, in the same
order, and its start symbol has the name of the first nonterminal. -/
structure SameNames (g g' : Grammar ρ) : Prop where
  terminals : g'.terminals.map (·.name) = g.terminals.map (·.name)
  nonterminals : g'.nonterminals.map (·.name) = g.nonterminals.map (·.name)
  plain : g'.Plain
  productions : g'.productions.map spelled = g.productions.map spelled
  start : g'.start.map (·.name) = g.nonterminals.head?.map (·.name)

theorem Copies.plain (h : Copies g₀ done g) : g.Plain := by
  intro p hp
  obtain ⟨-, w, hw, hmem⟩ := h.words p hp
  exact ⟨w, by rw [hw]; rfl, by rwa [h.terminals, h.nonterminals]⟩

theorem Plain.words (h : g.Plain) : ∀ p ∈ g.productions, ∃ w, p.body.word? = some w := fun p hp =>
  (h p hp).imp fun _ hw => hw.1

theorem reads_datumOf : Json.Reads (datumOf ns ts ps) := by
  have hnames : ∀ names : List String, Json.Reads (.list (names.map .text)) := fun names =>
    .list (by simpa using fun name _ => Json.reads_text name)
  refine .record ?_ (by simp)
  simp only [List.forall_mem_cons]
  refine ⟨hnames ns, hnames ts, .list ?_, by simp⟩
  simp only [List.forall_mem_map]
  refine fun p _ => .record ?_ (by simp)
  simp only [List.forall_mem_cons]
  exact ⟨Json.reads_text p.1, hnames p.2, by simp⟩

/-- A grammar is written, and read back with the same names, unless a right side is empty: then
reading fails. -/
theorem Made.ofJson_toJson (h : g.Made)
    (hnames : ((g.terminals ++ g.nonterminals).map (·.name)).Nodup) (hplain : g.Plain)
    (n : Nat) : ∃ text, g.toJson = .ok text ∧
      ((∃ p ∈ g.productions, p.body.word? = some []) →
        (ofJson text n : Except GrammarError (Grammar ρ)) = .error .outOfRange) ∧
      ((∀ p ∈ g.productions, p.body.word? ≠ some []) →
        ∃ g' : Grammar ρ, ofJson text n = .ok g' ∧ SameNames g g' ∧ g'.toJson = .ok text) := by
  have hg := h.consistent
  have htrimmed : ∀ v ∈ g.terminals.map (·.name) ++ g.nonterminals.map (·.name),
      Text.Trimmed v := by
    rw [← List.map_append, List.forall_mem_map]
    exact hg.trimmed
  obtain ⟨g₀, names, hd, hread⟩ := ofDatum_datumOf (ρ := ρ) htrimmed (by rwa [← List.map_append]) n
    (g.productions.map spelled)
  have hempty : Copies g₀ [] g₀ :=
    ⟨hd.settled, rfl, rfl, rfl, by rw [hd.fresh, List.map_nil], by simp [hd.fresh]⟩
  obtain ⟨hfail, hsucceed⟩ := hempty.foldlM_readProduction hd (hg.spelled_mem hplain)
      (hg.spelled_pairwise hnames hplain)
  have hwrite := toDatum_eq hplain.words
  refine ⟨_, by rw [toJson, hwrite]; rfl, ?_, ?_⟩
  · rintro ⟨p, hp, hw⟩
    rw [ofJson, reads_datumOf.read_write]
    exact hread.trans (hfail ⟨spelled p, List.mem_map_of_mem hp, by rw [spelled, hw]; rfl⟩)
  · intro hne
    obtain ⟨g', hg', h'⟩ := hsucceed <| List.forall_mem_map.mpr fun p hp hnil => by
      obtain ⟨w, hw, -⟩ := hplain p hp
      rw [spelled, hw] at hnil
      exact hne p hp (hw.trans (congrArg some (List.map_eq_nil_iff.mp hnil)))
    have hsame : SameNames g g' :=
      { terminals := h'.terminals ▸ hd.terminals
        nonterminals := h'.nonterminals ▸ hd.nonterminals
        plain := h'.plain
        productions := h'.productions
        start := by rw [h'.start, hd.start, ← List.head?_map, hd.nonterminals, List.head?_map] }
    refine ⟨g', ?_, hsame, ?_⟩
    · rw [ofJson, reads_datumOf.read_write]
      exact hread.trans hg'
    · rw [toJson, toDatum_eq h'.plain.words, hsame.terminals, hsame.nonterminals, hsame.productions]
      rfl

namespace Sample

def top : Symbol := { id := 1, name := "S", kind := .nonterminal }

def marked : Symbol := { id := 2, name := "epsilon", kind := .terminal }

/-- A terminal has the name of the empty word. -/
def exchanged : Grammar Unit :=
  Operation.run (Operation.run (Operation.run { } (.nonterminal "S" true)) (.terminal "epsilon"))
    (.extend top (.choice [.ofSymbols [marked], .ofSymbols [marked, top]]))

theorem exchanged_made : exchanged.Made := by
  refine (((Made.empty 0).step (.nonterminal "S" true) trivial).step (.terminal "epsilon")
    trivial).step _
    ⟨fun _ => by decide +kernel, fun s hs => ?_⟩
  have hs : s = marked ∨ s = top := by
    cases hs with
    | choice ht hs =>
      simp only [List.mem_cons, List.not_mem_nil, or_false] at ht
      rcases ht with rfl | rfl
      · exact .inl (List.mem_singleton.mp (Term.occurs_ofSymbols.mp hs))
      · simpa using Term.occurs_ofSymbols.mp hs
  rcases hs with rfl | rfl <;> decide +kernel

end Sample

/-- One symbol, two symbols, and then also an empty right side. -/
theorem ofJson_toJson_marked :
    (∃ (text : String) (g' : Grammar Unit), Sample.exchanged.toJson = .ok text ∧
      ofJson text 0 = .ok g' ∧
      SameNames Sample.exchanged g' ∧ g'.toJson = .ok text) ∧
    ∃ text, (Operation.run Sample.exchanged (.extend Sample.top .epsilon)).toJson = .ok text ∧
      (ofJson text 0 : Except GrammarError (Grammar Unit)) = .error .outOfRange := by
  constructor
  · obtain ⟨text, htext, -, hread⟩ := Sample.exchanged_made.ofJson_toJson (by decide +kernel)
        (by decide +kernel) 0
    obtain ⟨g', hg'⟩ := hread (by decide +kernel)
    exact ⟨text, g', htext, hg'⟩
  · have hmade := Sample.exchanged_made.step (.extend Sample.top .epsilon)
        ⟨fun _ => by decide +kernel, fun s hs => by cases hs⟩
    obtain ⟨text, htext, hread, -⟩ := hmade.ofJson_toJson (by decide +kernel) (by decide +kernel) 0
    exact ⟨text, htext, hread (by decide +kernel)⟩

end AutoCool.Grammar
