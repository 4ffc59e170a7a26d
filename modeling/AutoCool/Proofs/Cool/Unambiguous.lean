import AutoCool.Proofs.Cool.Productions
import AutoCool.Proofs.LR1.Simple
import AutoCool.Proofs.LR1.Simulation

/-!
# The grammar of Cool is unambiguous

The productions of Cool pass the check for simple grammars, so the tables of its parser have no
conflicts (`parser_isLR1`). Every tree of the grammar is then the one that its leaves are parsed to
(`parse_leaves`).
-/

namespace AutoCool.Cool

open LR1 (SyntaxTree Shape)

/-! ### No dead ends -/

/-- What holds of atoms and is kept on the way to a looser level holds of all levels. -/
theorem Level.induction_next {motive : Level → Prop} (atom : motive .atom)
    (loosen : ∀ l, l ≠ .atom → motive l.next → motive l) : ∀ l, motive l := by
  have factor2 := loosen .factor2 nofun atom
  have factor := loosen .factor nofun factor2
  have term := loosen .term nofun factor
  have arith := loosen .arith nofun term
  have comp := loosen .comp nofun arith
  have truth := loosen .truth nofun comp
  have expr := loosen .expr nofun truth
  intro l
  cases l <;> assumption

theorem Produces.rewrites (h : Produces p c) (hp : p ∈ grammar.productions) :
    grammar.Rewrites p (c.2.1.map Sign.symbol) :=
  ⟨hp, by rw [h.body, Body.word?_ofWord]⟩

theorem begins_terminal {s : Sign} (h : s.kind = .terminal) : ∃ t, grammar.Begins [s.symbol] t := by
  refine ⟨s.symbol, .terminal ?_⟩
  simp [Symbol.isTerminal, Symbol.isNonterminal, Sign.symbol, h]

theorem Clause.begins (c : Clause n (s :: ss)) (h : ∃ t, grammar.Begins [s.symbol] t) :
    ∃ t, grammar.Begins [(Sign.nt n).symbol] t := by
  obtain ⟨p, hp, hc⟩ := exists_produces c
  obtain ⟨t, ht⟩ := h
  rw [← hc.head]
  exact ⟨t, .enter (hc.rewrites hp) ht.append_left⟩

theorem begins_level (l : Level) : ∃ t, grammar.Begins [(Sign.nt (.level l)).symbol] t := by
  induction l using Level.induction_next with
  | atom => exact (Clause.literal .name).begins (begins_terminal rfl)
  | loosen l hl ih => exact (Clause.loosen l hl).begins ih

theorem nullable_or_begins (n : Nonterminal) :
    grammar.Nullable [(Sign.nt n).symbol] ∨ ∃ t, grammar.Begins [(Sign.nt n).symbol] t := by
  have hclass := Clause.classPlain.begins (begins_terminal rfl)
  have hparam := Clause.param.begins (begins_terminal rfl)
  cases n with
  | featureList =>
    obtain ⟨p, hp, hc⟩ := exists_produces .featureNil
    rw [← hc.head]
    exact .inl (.cons (hc.rewrites hp) .nil .nil)
  | program => exact .inr (Clause.program.begins (Clause.classLast.begins hclass))
  | classList => exact .inr (Clause.classLast.begins hclass)
  | defClass => exact .inr hclass
  | feature => exact .inr (Clause.attribute.begins (begins_terminal rfl))
  | paramList => exact .inr (Clause.paramLast.begins hparam)
  | param => exact .inr hparam
  | level l => exact .inr (begins_level l)
  | memberCall => exact .inr (Clause.selfCallNoArgs.begins (begins_terminal rfl))
  | exprList => exact .inr (Clause.exprLast.begins (begins_level .expr))
  | letList => exact .inr (Clause.letLast.begins (begins_terminal rfl))
  | caseList => exact .inr (Clause.caseLast.begins (begins_terminal rfl))
  | funcCall => exact .inr (Clause.dispatchNoArgs.begins (begins_terminal rfl))
  | argList => exact .inr (Clause.argLast.begins (begins_level .expr))

theorem grammar_live : grammar.Live := by
  intro p u a v hp _ s hs
  obtain ⟨c, -, hc⟩ := exists_of_forall₂ grammar_produces hp.1
  obtain hword := Option.some.inj ((hc.rewrites hp.1).2.symm.trans hp.2)
  obtain ⟨s, -, rfl⟩ := List.mem_map.mp (hword ▸ List.mem_append_right u (.tail a hs))
  cases s with
  | nt n => exact nullable_or_begins n
  | mark m => exact .inr (begins_terminal rfl)
  | carrier c => exact .inr (begins_terminal rfl)

/-! ### No conflicts -/

/-- A clause by the numbers of its signs. -/
def Clause.code (c : Σ n ss, Clause n ss) : Nat × List Nat := ((Sign.nt c.1).id, c.2.1.map Sign.id)

/-- The rules of the parser by the numbers of their signs. Number 63 is that of the start symbol
that is added. -/
def shape : Shape :=
  (63, [(Sign.nt .program).id]) :: (Sign.nonterminals.map Sign.id).flatMap fun a =>
    (Clause.all.map Clause.code).filter (·.1 == a)

theorem shape_checks : (shape.tables 3 63 0).checks shape 0 = true := by
  decide +kernel

theorem map_codeOf_productions : grammar.productions.map LR1.codeOf =
      Clause.all.map Clause.code := by
  rw [← List.forall₂_eq_eq_eq, List.forall₂_map_left_iff, List.forall₂_map_right_iff]
  refine grammar_produces.imp fun p c h => ?_
  rw [LR1.codeOf, h.head, h.body, Body.word?_ofWord, Option.getD_some, List.map_map]
  rfl

theorem parser_shape : Shape.ofRules parser.rules = shape := by
  have hnext : grammar.nextId = 63 := by
    obtain ⟨l, hl⟩ := grammar_eq
    rw [hl, symbols_eq]
  rw [LR1.Parser.shape_ofGrammar grammar_proper parser_ofGrammar, hnext, map_codeOf_productions,
    grammar_nonterminals,
    List.map_map]
  rfl

theorem parser_constructed :
    ∃ top q, grammar.Augments (Sign.nt .program).symbol parser.grammar top q ∧
    parser.Constructed (Sign.nt .program).symbol := by
  obtain ⟨p, top, q, hp, haug, hmade⟩ := LR1.Parser.ofGrammar_ok grammar_proper
  obtain rfl := Except.ok.inj (parser_ofGrammar.symm.trans hp)
  exact ⟨top, q, haug, hmade⟩

theorem parser_isLR1 : parser.isLR1 = true := by
  obtain ⟨top, q, haug, hmade⟩ := parser_constructed
  refine hmade.isLR1_of_checks (haug.live grammar_live) (t := shape.tables 3 63 0) ?_
  rw [parser_shape, haug.endMark, grammar_endMark]
  exact shape_checks

/-! ### The tree of a text -/

theorem parse_leaves (ht : t.Fits grammar) (hsymbol : t.symbol = (Sign.nt .program).symbol)
    (heof : eof.type = grammar.endMark)
    (rest : List Token) :
    ∃ output operations, parser.parse (t.leaves ++ eof :: rest) = .accepted output operations ∧
      evaluate output operations (t.leaves ++ eof :: rest) = some <$> fragmentOf t := by
  have hwf := grammar_built.wf
  obtain ⟨top, q, haug, hmade⟩ := parser_constructed
  have hspells := ht.spells hwf grammar_proper.plain grammar_proper.names_nodup
  rw [hsymbol] at hspells
  obtain ⟨c, hrun, hout⟩ := hmade.canonical.run_of_spells parser_isLR1
      ((grammar_proper.spells_iff haug).mpr hspells) rfl
    (heof.trans haug.endMark.symm) rest
  have hparse := LR1.Parser.parse_of_accept hrun
  rw [hout] at hparse
  obtain ⟨t', eof', rest', ht', hsymbol', hps, hw, heof', heval⟩ := tree_of_accepted hparse
  -- the tree that the parser has grown has the same record
  have hleaves : t.leaves = t'.leaves := by
    rw [← LR1.Parser.takeWhile_of_fits hwf ht heof, hw, LR1.Parser.takeWhile_of_fits hwf ht' heof']
  have hdetermined := ht.determined hwf grammar_proper.plain grammar_proper.names_nodup
  obtain ⟨rfl, -, -⟩ := hdetermined t' [] [] [] [] ht' (hsymbol.trans hsymbol'.symm) (by rw [hps])
      (by rw [hleaves])
  exact ⟨_, _, hparse, heval⟩

end AutoCool.Cool
