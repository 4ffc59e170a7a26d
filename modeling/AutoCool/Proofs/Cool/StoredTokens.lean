import AutoCool.Proofs.Cool.Printing

/-!
# The tokens of a program

A program keeps the tokens of its names, types and literals, and nothing else of the text it was
read from. Read in the order of the text they are exactly the tokens of these types, each once
(`tokens_of_accepted`).
-/

namespace AutoCool.Cool

/-! ### The tokens that are kept -/

namespace Expr

mutual

/-- The tokens of an expression in the order of the text. The type of a call stands before the name
of the method. -/
def tokens : Expr → List Token
  | .ifThenElse condition ifBody elseBody => condition.tokens ++ ifBody.tokens ++ elseBody.tokens
  | .whileLoop condition body => condition.tokens ++ body.tokens
  | .block expressions => tokensOf expressions
  | .letIn bindings body => tokensOfBindings bindings ++ body.tokens
  | .caseOf subject branches => subject.tokens ++ tokensOfBranches branches
  | .assign name value => name :: value.tokens
  | .unary _ operand => operand.tokens
  | .binary _ left right => left.tokens ++ right.tokens
  | .call object name args type => object.tokens ++ type.toList ++ name :: tokensOf args
  | .selfCall name args => name :: tokensOf args
  | .new type => [type]
  | .atom _ t => [t]

def tokensOf : List Expr → List Token
  | [] => []
  | e :: es => e.tokens ++ tokensOf es

def tokensOfBindings : List Binding → List Token
  | [] => []
  | .mk name type none :: bs => name :: type :: tokensOfBindings bs
  | .mk name type (some e) :: bs => name :: type :: (e.tokens ++ tokensOfBindings bs)

def tokensOfBranches : List Branch → List Token
  | [] => []
  | .mk name type e :: bs => name :: type :: (e.tokens ++ tokensOfBranches bs)

end

end Expr

def Param.tokens (p : Param) : List Token := [p.name, p.type]

def Feature.tokens : Feature → List Token
  | .attribute name type value => name :: type :: value.elim [] Expr.tokens
  | .method name params type body => name :: (params.flatMap Param.tokens ++ type :: body.tokens)

def ClassDecl.tokens (c : ClassDecl) : List Token :=
  c.name :: (c.parent.toList ++ c.features.flatMap Feature.tokens)

/-- The tokens that a program keeps, in the order of the text. -/
def Program.tokens (p : Program) : List Token := p.classes.flatMap ClassDecl.tokens

/-- The types of the tokens that a program keeps. -/
def carriers : List Symbol := ["id", "type", "integer", "string", "bool"].map symbol

def carried (toks : List Token) : List Token := toks.filter (·.type ∈ carriers)

/-! ### The tokens of meanings -/

def Nonterminal.tokens : (n : Nonterminal) → n.Meaning → List Token
  | .program, p => Program.tokens p
  | .classList, (c, cs) => (c :: cs).flatMap ClassDecl.tokens
  | .defClass, c => ClassDecl.tokens c
  | .featureList, fs => List.flatMap Feature.tokens fs
  | .feature, f => Feature.tokens f
  | .paramList, (p, ps) => (p :: ps).flatMap Param.tokens
  | .param, p => Param.tokens p
  | .exprList, (e, es) | .argList, (e, es) => Expr.tokensOf (e :: es)
  | .letList, (b, bs) => Expr.tokensOfBindings (b :: bs)
  | .caseList, (b, bs) => Expr.tokensOfBranches (b :: bs)
  | .funcCall, (name, args, type) => type.toList ++ name :: Expr.tokensOf args
  | .memberCall, e | .level _, e => Expr.tokens e

def Sign.tokens : (s : Sign) → s.Meaning → List Token
  | .nt n, x => n.tokens x
  | .mark _, _ => []
  | .carrier _, t => [t]

def tokensOfMeanings : (ss : List Sign) → Meanings ss → List Token
  | [], _ => []
  | s :: ss, (x, xs) => s.tokens x ++ tokensOfMeanings ss xs

theorem Clause.tokens_build (c : Clause n ss) (xs : Meanings ss) :
    n.tokens (c.build xs) = tokensOfMeanings ss xs := by
  cases c with
  | featureNil => rfl
  | call =>
    obtain ⟨object, ⟨name, args, type⟩, _⟩ := xs
    simp [Clause.build, tokensOfMeanings, Sign.tokens, Nonterminal.tokens, Expr.tokens]
  | _ =>
    all_goals
      dsimp only [Meanings, Sign.Meaning, Nonterminal.Meaning] at xs
      casesm* _ × _
      simp [Clause.build, tokensOfMeanings, Sign.tokens, Nonterminal.tokens, Program.tokens,
        ClassDecl.tokens,
        Feature.tokens, Param.tokens, Expr.tokens, Expr.tokensOf, Expr.tokensOfBindings,
          Expr.tokensOfBranches]

/-! ### Trees -/

theorem mem_carriers_iff (s : Sign) : s.symbol ∈ carriers ↔ ∃ c, s = .carrier c := by
  have hcarriers : carriers = Carrier.all.map fun c => (Sign.carrier c).symbol := by
    have hnames : ["id", "type", "integer", "string", "bool"] = Carrier.all.map fun c =>
        (Sign.carrier c).name := rfl
    rw [carriers, hnames, List.map_map]
    refine List.map_congr_left fun c _ => ?_
    rw [Function.comp_apply, symbol_name]
  rw [hcarriers, List.mem_map]
  constructor
  · rintro ⟨c, -, h⟩
    exact ⟨c, (Sign.symbol_injective h).symm⟩
  · rintro ⟨c, rfl⟩
    exact ⟨c, by cases c <;> decide, rfl⟩

open LR1 (SyntaxTree)

/-- The tree is one for something that keeps the tokens of the leaves. -/
def Stores (t : SyntaxTree FragmentRule) (s : Sign) : Prop :=
  ∃ x, Means s x t ∧ s.tokens x = carried t.leaves

theorem stores_leaf (hs : s.kind = .terminal) (ht : t.type = s.symbol) : Stores (.leaf t) s := by
  cases s with
  | nt n => cases hs
  | mark m =>
    have hnot : t.type ∉ carriers := by
      rw [ht, mem_carriers_iff]
      rintro ⟨c, hc⟩
      cases hc
    exact ⟨t, .mark (ht.trans (symbol_name (.mark m)).symm), by simp [carried, hnot, Sign.tokens]⟩
  | carrier c =>
    have hmem : t.type ∈ carriers := by
      rw [ht, mem_carriers_iff]
      exact ⟨c, rfl⟩
    exact ⟨t, .carrier (ht.trans (symbol_name (.carrier c)).symm), by simp [carried, hmem,
      Sign.tokens]⟩

theorem stores_all (h : List.Forall₂ Stores ts ss) :
    ∃ xs, MeansAll ss xs ts ∧ tokensOfMeanings ss xs = carried (ts.flatMap SyntaxTree.leaves) := by
  induction h with
  | nil => exact ⟨(), .nil, rfl⟩
  | cons hx _ ih =>
    obtain ⟨x, hx, htokens⟩ := hx
    obtain ⟨xs, hxs, htokenss⟩ := ih
    refine ⟨(x, xs), .cons hx hxs, ?_⟩
    rw [tokensOfMeanings, htokens, htokenss, List.flatMap_cons, carried, carried, carried,
      List.filter_append]

theorem stores_of_fits (ht : t.Fits grammar) (hs : t.symbol = s.symbol) : Stores t s := by
  have hwf := grammar_built.wf
  induction ht generalizing s with
  | @leaf t ht =>
    have hkind := hwf.terminal_kind _ ht
    rw [show t.type = s.symbol from hs] at hkind
    exact stores_leaf hkind hs
  | @node p w ts hp hnames hts ih =>
    obtain ⟨c, -, hc⟩ := exists_of_forall₂ grammar_produces hp.1
    obtain rfl : s = .nt c.1 := Sign.symbol_injective (hs.symm.trans hc.head)
    have hw : w = c.2.1.map Sign.symbol := Option.some.inj (hp.2.symm.trans (hc.rewrites hp.1).2)
    have hsymbols := SyntaxTree.Fits.map_symbol hwf grammar_proper.plain grammar_proper.names_nodup
        hp hnames hts
    have hstores : List.Forall₂ Stores ts c.2.1 := by
      rw [hw, ← List.forall₂_eq_eq_eq, List.forall₂_map_left_iff,
        List.forall₂_map_right_iff] at hsymbols
      have hih : ∀ t ∈ ts, ∀ s : Sign, t.symbol = s.symbol → Stores t s :=
        fun t ht s hs => ih t ht hs
      exact ((List.forall₂_and_left ts c.2.1).mpr ⟨hih, hsymbols⟩).imp fun t s h => h.1 s h.2
    obtain ⟨xs, hxs, htokens⟩ := stores_all hstores
    refine ⟨c.2.2.build xs, ⟨.node hp hnames hts, hc.head, hc.fragmentOf_node hxs.mapM_fragmentOf⟩,
      ?_⟩
    rw [SyntaxTree.leaves_node, ← htokens]
    exact c.2.2.tokens_build xs

/-- Evaluating an accepted input gives a program that keeps the names, types and literals before the
end mark, in order and each once. -/
theorem tokens_of_accepted {w : List Token} {output : List (Production FragmentRule)}
    {operations : List LR1.Operation}
    (h : parser.parse w = .accepted output operations) : ∃ p : Program,
      evaluate output operations w = .ok (some (Fragment.ofProgram p)) ∧ parse w = .program p ∧
        p.tokens = carried (w.takeWhile (·.type ≠ grammar.endMark)) := by
  obtain ⟨t, eof, rest, hfits, hsymbol, -, rfl, heof, heval⟩ := tree_of_accepted h
  obtain ⟨p, hp, htokens⟩ : ∃ p : Program, Means (.nt .program) p t ∧ p.tokens = carried t.leaves :=
    stores_of_fits hfits hsymbol
  rw [hp.fragment_eq] at heval
  refine ⟨p, heval, parse_of_accepted h heval, ?_⟩
  rw [LR1.Parser.takeWhile_of_fits grammar_built.wf hfits heof, htokens]

theorem tokens_of_accepted_nested : ∃ w output operations,
    parser.parse w = .accepted output operations ∧
    (carried (w.takeWhile (·.type ≠ grammar.endMark))).map Token.text =
      ["A", "B", "f", "x", "Int", "Int", "x", "1", "2", "x", "A", "f", "x", "3"] := by
  have heof : (Token.ofEndMark (.endMark 0)).type = grammar.endMark := grammar_endMark.symm
  obtain ⟨output, operations, hparse, heval⟩ :=
    accepted_of_printed Sample.nested_wellFormed (written_write _) heof []
  refine ⟨_, output, operations, hparse, ?_⟩
  obtain ⟨p, -, hp, htokens⟩ := tokens_of_accepted hparse
  cases (parse_of_accepted hparse heval).symm.trans hp
  rw [← htokens]
  rfl

end AutoCool.Cool
