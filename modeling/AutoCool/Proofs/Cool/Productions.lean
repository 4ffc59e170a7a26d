import AutoCool.Proofs.Cool.Clauses
import AutoCool.Proofs.LR1.Growth

/-!
# The grammar of Cool is proper

No two entries of the table make equal productions, so each of them is filed, and the productions of
the grammar are those of the clauses (`grammar_produces`). The grammar is one that a parser can be
made for (`grammar_proper`).
-/

namespace AutoCool

variable {ρ : Type}

/-! ### Different productions -/

namespace Body

/-- The right side that is a word. -/
def ofWord (w : List Symbol) : Body ρ := if w.isEmpty then .epsilon else .sentence w

theorem word?_ofWord (w : List Symbol) : (ofWord w : Body ρ).word? = some w := by
  cases w <;> rfl

theorem same_ofWord (w w' : List Symbol) :
    (ofWord w : Body ρ).same (ofWord w') = .ok (decide (w = w')) := by
  cases w with
  | nil => cases w' <;> simp [ofWord, same, toTerm, Term.same, Term.ofSymbols]
  | cons s w =>
    cases w' with
    | nil => simp [ofWord, same, toTerm, Term.same, Term.ofSymbols]
    | cons s' w' => exact same_sentence _ _

end Body

namespace Grammar

variable {g : Grammar ρ} {p : Production ρ} {ps : List (Production ρ)}

theorem addProductions_filed (hgen : ∀ p ∈ ps, p.head.generation = g.earlier.length)
    (hrules : ∀ p ∈ ps, p.isAttributed = true)
    (hledger : g.ledger.productions = [] ∨ g.ledger.attributed = some true)
    (hnew : (g.filed ++ ps).Pairwise fun q p => q.same p = .ok false) :
    ∃ l, (g.addProductions ps).1 = { g with ledger := l, filed := g.filed ++ ps } := by
  induction ps generalizing g with
  | nil => exact ⟨g.ledger, by simp [addProductions]⟩
  | cons p ps ih =>
    have hp := addProduction_new (hgen p (.head _)) (by rwa [hrules p (.head _)])
      fun q hq => (List.pairwise_append.mp hnew).2.2 q hq p (.head _)
    rw [hrules p (.head _)] at hp
    rw [addProductions, hp]
    obtain ⟨l, hl⟩ := ih (g := { g with
        ledger := { attributed := some true, productions := g.ledger.productions ++ [p] }
        filed := g.filed ++ [p] }) (fun q hq => hgen q (.tail p hq))
      (fun q hq => hrules q (.tail p hq)) (.inr rfl) (by simpa using hnew)
    exact ⟨l, by simpa [productions] using hl⟩

theorem Built.addProductions (hg : g.Built)
    (hps : ∀ p ∈ ps, p.head ∈ g.nonterminals ∧ p.head.generation = g.earlier.length ∧
      ∃ t, productionsFor p.head t = .ok [p]) : (g.addProductions ps).1.Built := by
  induction ps generalizing g with
  | nil => exact hg
  | cons p ps ih =>
    obtain ⟨hhead, hgen, t, ht⟩ := hps p (.head _)
    rw [Grammar.addProductions]
    cases h : g.addProduction p with
    | error e => exact hg
    | ok g' =>
      have hextend : (g.extend p.head t).1 = g' := by
        have hkind := hg.wf.nonterminal_kind _ hhead
        simp [Grammar.extend, Symbol.isNonterminal, hkind, ht, Grammar.addProductions, h]
      have hsame : g'.nonterminals = g.nonterminals ∧ g'.earlier = g.earlier := by
        obtain ⟨l, -, rfl | rfl⟩ := WF.addProduction_eq hgen h <;> exact ⟨rfl, rfl⟩
      refine ih (hextend ▸ hg.extend hhead hgen) fun q hq => ?_
      rw [hsame.1, hsame.2]
      exact hps q (.tail p hq)

theorem productionsFor_tuple (head : Symbol) (w : List Symbol) (r : ρ) :
    productionsFor head (.tuple [if w.isEmpty then .epsilon else .ofSymbols w, .rule r]) =
      .ok [{ head, body := .ofWord w, slots := some (some (.rule r) :: w.map fun _ => none) }] := by
  cases w with
  | nil => rfl
  | cons s w =>
    simp [productionsFor, productionOfTuple, Term.ofSymbols, Term.length, Term.elements, slotOf,
      Body.ofTerm, Body.ofWord,
      bind, Except.bind, pure, Except.pure, Term.symbolsOf?, List.map_const', List.replicate_succ]

end Grammar

theorem exists_of_forall₂
    (h : List.Forall₂ R l l') (hx : x ∈ l) : ∃ y ∈ l', R x y := by
  induction h with
  | nil => cases hx
  | @cons x' y' l l' hxy _ ih =>
    rcases List.mem_cons.mp hx with rfl | hx
    · exact ⟨y', .head _, hxy⟩
    · obtain ⟨y, hy, h⟩ := ih hx
      exact ⟨y, .tail y' hy, h⟩

theorem pairwise_of_forall₂ (h : List.Forall₂ R l l') (hT : l'.Pairwise T)
    (hS : ∀ {x y x' y'}, R x x' → R y y' → T x' y' → S x y) : l.Pairwise S := by
  induction h with
  | nil => exact .nil
  | cons hx hl ih =>
    rw [List.pairwise_cons] at hT
    refine List.pairwise_cons.mpr ⟨fun y hy => ?_, ih hT.2⟩
    obtain ⟨y', hy', hyy'⟩ := exists_of_forall₂ hl hy
    exact hS hx hyy' (hT.1 y' hy')

namespace Cool

theorem Clause.mem_all (c : Clause n ss) : ⟨n, ss, c⟩ ∈ Clause.all := by
  cases c with
  | loosen l h => cases l <;> first | exact absurd rfl h | repeat constructor
  | unary op => cases op <;> repeat constructor
  | binary op => cases op <;> repeat constructor
  | literal kind => cases kind <;> repeat constructor
  | _ => repeat constructor

theorem Clause.all_nodup : (Clause.all.map fun c => (c.1, c.2.1)).Nodup :=
  nodup_of_distinct (f := fun c => c.2.foldl (fun n s => 64 * n + s.id) c.1.id) (by decide +kernel)

/-- A production of the grammar and its clause. -/
structure Produces (p : Production FragmentRule) (c : Σ n ss, Clause n ss) : Prop where
  head : p.head = (Sign.nt c.1).symbol
  body : p.body = .ofWord (c.2.1.map Sign.symbol)
  rule : ∃ r : FragmentRule, p.slots = some (some (.rule r) :: c.2.1.map fun _ => none) ∧
    ∀ xs, r (fragments c.2.1 xs) = .ok (c.1.fragment (c.2.2.build xs))

theorem Follows.produces (h : Follows entry c) :
    Produces (productionOf entry.1 entry.2.1 entry.2.2) c := by
  have hsymbols : (Text.words entry.2.1).map symbol = c.2.1.map Sign.symbol := by
    rw [h.body, List.map_map]
    refine List.map_congr_left fun s _ => ?_
    rw [Function.comp_apply, symbol_name]
  refine ⟨?_, ?_, entry.2.2, ?_, h.rule⟩
  · rw [productionOf, h.head, symbol_name]
  · rw [← hsymbols]
    simp [productionOf, Body.ofWord]
  · simp only [productionOf, h.body, List.map_map]
    rfl

theorem table_produces : List.Forall₂ Produces
      (productionTable.map fun (head, body, rule) => productionOf head body rule) Clause.all :=
  List.forall₂_map_left_iff.mpr (table_follows.imp fun _ _ h => h.produces)

theorem Produces.same_eq (hp : Produces p c) (hq : Produces q d) (h : (c.1, c.2.1) ≠ (d.1, d.2.1)) :
    p.same q = .ok false := by
  rw [Production.same, hp.head, hq.head, hp.body, hq.body, Body.same_ofWord]
  split
  · rename_i hhead
    have hn := Sign.symbol_injective (eq_of_beq hhead)
    injection hn with hn
    have hss : c.2.1.map Sign.symbol ≠ d.2.1.map Sign.symbol := fun hss =>
      h (Prod.ext hn (List.map_injective_iff.mpr Sign.symbol_injective hss))
    rw [decide_eq_false hss]
  · rfl

theorem symbolsOf_built (nonterminals terminals : String) :
    (symbolsOf nonterminals terminals).Built := by
  have htrim : Text.trim "<program>" = "<program>" := by decide +kernel
  have hempty : "<program>".isEmpty = false := by decide +kernel
  have hstart : ({} : Grammar FragmentRule).nonterminal "<program>" true =
      .ok (({} : Grammar FragmentRule).pushStart "<program>") := by
    simp [Grammar.nonterminal, htrim, hempty]
  exact .terminals (.nonterminals (.nonterminal (.empty 0) hstart))

theorem table_made : ∀ p ∈ productionTable.map fun (head, body, rule) =>
      productionOf head body rule,
    p.head ∈ symbols.nonterminals ∧ p.head.generation = symbols.earlier.length ∧
      ∃ t, Grammar.productionsFor p.head t = .ok [p] := by
  intro p hp
  obtain ⟨c, -, h⟩ := exists_of_forall₂ table_produces hp
  obtain ⟨r, hslots, -⟩ := h.rule
  rw [h.head, symbols_eq]
  refine ⟨List.mem_map_of_mem (Sign.mem_nonterminals c.1), rfl, _,
    (Grammar.productionsFor_tuple _ (c.2.1.map Sign.symbol) r).trans ?_⟩
  obtain ⟨head, body, slots⟩ := p
  obtain rfl := h.head
  obtain rfl := h.body
  obtain rfl := hslots
  rw [List.map_map]
  rfl

theorem grammar_eq : ∃ l, grammar = { symbols with
    ledger := l
    filed := productionTable.map fun (head, body, rule) => productionOf head body rule } := by
  have hfresh : symbols.filed = [] ∧ symbols.ledger.productions = [] := by
    rw [symbols_eq]; exact ⟨rfl, rfl⟩
  have hrules : ∀ p ∈ productionTable.map fun (head, body, rule) => productionOf head body rule,
      p.isAttributed = true := by
    intro p hp
    obtain ⟨c, -, h⟩ := exists_of_forall₂ table_produces hp
    obtain ⟨r, hslots, -⟩ := h.rule
    simp [Production.isAttributed, hslots]
  have hnew := pairwise_of_forall₂ table_produces (List.pairwise_map.mp Clause.all_nodup)
      Produces.same_eq
  obtain ⟨l, hl⟩ := Grammar.addProductions_filed (g := symbols) (fun p hp => (table_made p hp).2.1)
      hrules (.inl hfresh.2)
    (by rwa [hfresh.1])
  exact ⟨l, by rw [grammar, grammarOf, hl, hfresh.1, List.nil_append]⟩

theorem grammarOf_built (hps : ∀ p ∈ ps, p.head ∈ symbols.nonterminals ∧
      p.head.generation = symbols.earlier.length ∧ ∃ t, Grammar.productionsFor p.head t = .ok [p]) :
    (grammarOf ps).Built :=
  have hsymbols : symbols.Built := symbolsOf_built nonterminalNames terminalNames
  hsymbols.addProductions hps

theorem grammar_built : grammar.Built := grammarOf_built table_made

theorem grammar_produces : List.Forall₂ Produces grammar.productions Clause.all := by
  obtain ⟨l, hl⟩ := grammar_eq
  rw [grammar_built.wf.filed_eq, hl]
  exact table_produces

theorem grammar_terminals : grammar.terminals = Sign.terminals.map Sign.symbol := by
  obtain ⟨l, hl⟩ := grammar_eq
  rw [hl, symbols_eq]

theorem grammar_nonterminals : grammar.nonterminals = Sign.nonterminals.map Sign.symbol := by
  obtain ⟨l, hl⟩ := grammar_eq
  rw [hl, symbols_eq]

theorem grammar_endMark : grammar.endMark = Symbol.endMark 0 := by
  obtain ⟨l, hl⟩ := grammar_eq
  rw [hl, symbols_eq]

theorem mem_grammar_symbols (s : Sign) : s.symbol ∈ grammar.terminals ++ grammar.nonterminals := by
  rw [grammar_terminals, grammar_nonterminals, List.mem_append]
  cases s with
  | nt n => exact .inr (List.mem_map_of_mem (Sign.mem_nonterminals n))
  | mark m => exact .inl (List.mem_map_of_mem (Sign.mem_terminals rfl))
  | carrier c => exact .inl (List.mem_map_of_mem (Sign.mem_terminals rfl))

theorem exists_produces (c : Clause n ss) :
    ∃ p ∈ grammar.productions, Produces p ⟨n, ss, c⟩ := by
  exact exists_of_forall₂ grammar_produces.flip c.mem_all

theorem grammar_proper : grammar.Proper (Sign.nt .program).symbol where
  built := grammar_built
  plain := by
    intro p hp
    obtain ⟨c, -, h⟩ := exists_of_forall₂ grammar_produces hp
    refine ⟨c.2.1.map Sign.symbol, by rw [h.body, Body.word?_ofWord], fun s hs => ?_⟩
    obtain ⟨s, -, rfl⟩ := List.mem_map.mp hs
    exact mem_grammar_symbols s
  names_nodup := by
    rw [grammar_terminals, grammar_nonterminals, List.map_append, List.map_map, List.map_map]
    have h := (List.nodup_cons.mp names_nodup).2
    rw [Sign.all, List.map_append] at h
    exact (List.perm_append_comm.nodup_iff).mp h
  start_eq := by
    obtain ⟨l, hl⟩ := grammar_eq
    rw [hl, symbols_eq]

/-! ### Trees -/

/-- What the rules make of a syntax tree. -/
def fragmentOf (t : LR1.SyntaxTree FragmentRule) : Except LR1.EvaluationError Fragment :=
  t.value (fun rule => rule) Fragment.token

theorem Produces.fragmentOf_node (h : Produces p c)
    (hts : ts.mapM fragmentOf = .ok (fragments c.2.1 xs)) :
    fragmentOf (.node p ts) = .ok (c.1.fragment (c.2.2.build xs)) := by
  obtain ⟨rule, hslots, hrule⟩ := h.rule
  have hnone : ∀ slot ∈ c.2.1.map fun _ => (none : Option (Slot FragmentRule)), slot = none := by
    simp
  have hts' : ts.mapM (LR1.SyntaxTree.value (fun rule => rule) Fragment.token) = .ok
      (fragments c.2.1 xs) := hts
  rw [fragmentOf, LR1.SyntaxTree.value_node, hts', LR1.Evaluation.ruleOf_eq hslots hnone]
  exact hrule xs

theorem parser_ofGrammar : LR1.Parser.ofGrammar grammar = .ok parser := by
  obtain ⟨p, _, _, hp, -⟩ := LR1.Parser.ofGrammar_ok grammar_proper
  rw [parser, hp]
  rfl

theorem tree_of_accepted (h : parser.parse w = .accepted output operations) :
    ∃ (t : LR1.SyntaxTree FragmentRule) (eof : Token) (rest : List Token),
      t.Fits grammar ∧ t.symbol = (Sign.nt .program).symbol ∧ t.productions = output ∧
        w = t.leaves ++ eof :: rest ∧
        eof.type = grammar.endMark ∧ evaluate output operations w = some <$> fragmentOf t := by
  have hwf := grammar_built.wf
  obtain ⟨p, top, q, hp, haug, htabled⟩ :=
    LR1.Parser.ofGrammar_tabled hwf grammar_proper.plain grammar_proper.start_eq
  obtain rfl := Except.ok.inj (parser_ofGrammar.symm.trans hp)
  obtain ⟨t, eof, rest, hfits, hname, rfl, hne, rfl, rfl, heof⟩ :=
    htabled.tree_of_parse haug hwf rfl h
  have hsymbol := List.inj_on_of_nodup_map grammar_proper.names_nodup (hfits.symbol_mem hwf)
      (mem_grammar_symbols _) hname
  exact ⟨t, eof, rest, hfits, hsymbol, rfl, rfl, heof,
    hfits.evaluate_eq hne (heof ▸ hwf.endMark_kind) rest⟩

theorem parse_of_accepted (h : parser.parse w = .accepted output operations)
    (heval : evaluate output operations w = .ok (some (Fragment.ofProgram p))) :
    parse w = .program p := by
  simp [parse, h, heval, Program.ofFragment?_ofProgram]

end Cool

end AutoCool
