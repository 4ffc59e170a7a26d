import AutoCool.Cool.Report
import AutoCool.Workload.Program
import AutoCool.Workload.Sample

/-!
# Workloads

A workload works on something of a given size and answers with figures about the result, which do
not depend on how long it took.
-/

namespace AutoCool

inductive Workload
  | parsing
  | semantics
  | pipeline
  | parserBuilding
  | grammarBuilding
  | automata
  | typeSystem
  | lookaheads
deriving DecidableEq, Repr

namespace Workload

def ofName? : String → Option Workload
  | "parse_and_build_ast" => some .parsing
  | "semantic_analysis" => some .semantics
  | "full_pipeline" => some .pipeline
  | "lr1_parser_build" => some .parserBuilding
  | "grammar_construction" => some .grammarBuilding
  | "automata_state" => some .automata
  | "type_system" => some .typeSystem
  | "firsts_and_follows" => some .lookaheads
  | _ => none

def parameter : Workload → String
  | .parsing | .semantics | .pipeline => "n_classes"
  | .parserBuilding => "n_rules"
  | .grammarBuilding => "n_symbols"
  | .automata => "n_states"
  | .typeSystem => "n_types"
  | .lookaheads => "n_grammars"

def sizes : Workload → Nat × Nat × Nat
  | .parsing => (3, 12, 48)
  | .semantics => (3, 12, 40)
  | .pipeline => (2, 8, 24)
  | .parserBuilding => (3, 6, 10)
  | .grammarBuilding => (15, 40, 120)
  | .automata | .typeSystem => (20, 60, 200)
  | .lookaheads => (2, 6, 16)

inductive Error
  | grammar (e : GrammarError)
  | types (f : Failure)
deriving DecidableEq, Repr

def onGrammar {α : Type} : Except GrammarError α → Except Error α := Except.mapError .grammar

def onTypes {α : Type} : Except Failure α → Except Error α := Except.mapError .types

def count (n : Nat) : Datum := .int n

def named (name : Option String) : Datum := name.elim .nothing .text

def programTokens (n : Nat) : List Token := ((Cool.Lexer.read (program n)).tokens?).getD []

def parsedProgram (n : Nat) : Cool.Program :=
  match Cool.parse (programTokens n) with
  | .program p => p
  | .rejected _ _ => ⟨[]⟩

def parseCounts (n : Nat) : Nat × Nat :=
  match Cool.parser.parse (programTokens n) with
  | .accepted productions operations => (operations.length, productions.length)
  | .rejected _ _ | .overrun | .endless => (0, 0)

def parsingFigures (n : Nat) : List Datum :=
  let p := parsedProgram n
  let line := (p.classes.head?.map fun c => c.name.line).getD 0
  [count (parseCounts n).1, count (parseCounts n).2, count p.classes.length, count line]

def analysisFigures (a : Cool.Analysis) : Datum × Datum × Datum :=
  (count a.diagnostics.size, count a.findings.size, count a.types.displayContext.length)

def semanticFigures (n : Nat) : Except Error (List Datum) := do
  let p := parsedProgram n
  let types := ((Cool.collect p.classes).outcome Cool.Builtin.types).2
  let types := ((Cool.build p).outcome types).2
  let checked := ((Cool.check p).outcome { types }).2
  let inferred := ((Cool.Analysis.inferAll p checked.walks).outcome checked).2
  let whole ← onTypes (Cool.analyze p)
  let (errors, findings, length) := analysisFigures inferred
  let (errors', findings', length') := analysisFigures whole
  let classes (a : Cool.Analysis) := count (a.scopes.get ScopeTree.root).children.length
  return [errors, findings, length, length', errors', findings', classes inferred, classes whole]

def pipelineFigures (n : Nat) : Except Error (List Datum) := do
  let a ← onTypes (Cool.analyze (parsedProgram n))
  let (errors, findings, length) := analysisFigures a
  return [count (programTokens n).length, count (parseCounts n).1,
    count (parsedProgram n).classes.length, errors,
    findings, length]

def pipelinePage (n : Nat) : List Cool.Block :=
  (Cool.Page.untouched.blocks ++ (Cool.Page.ofText (program n)).blocks).filter fun
    | .textArea _ | .button _ => false
    | _ => true

def parserFigures (n : Nat) : Except Error (List Datum) := do
  let g ← onGrammar (operatorGrammar n)
  let p ← onGrammar (LR1.Parser.ofGrammar g)
  let firsts ← onGrammar g.firsts
  let follows ← onGrammar (g.follows firsts)
  let steps := match p.parse (operatorTokens g n) with
    | .accepted _ operations => operations.length
    | .rejected _ _ | .overrun | .endless => 0
  let first := (g.start.bind firsts.get?).bind fun s => s.names.head?
  return [count p.automaton.visit.length, count p.rules.size, .bool p.isLR1,
    count (firsts.symbols.length + firsts.bodies.length), count follows.length, count p.rows.size,
      count steps,
    named first]

def grammarFigures (n : Nat) : Except Error (List Datum) := do
  let g ← onGrammar (chainGrammar n)
  let phrases ← onGrammar shortPhrases
  return [count phrases.length, .text (String.ofList (g.display.toList.take 4)),
    count g.productions.length]

/-- Figures about an automaton: its states, whether it recognises a word of four letters and one as
long as the chain, and how labels are written. -/
def automatonFigures (n : Nat) : List Datum :=
  match chainAutomaton n with
  | none => []
  | some a =>
    let d := a.determinize
    let word (length : Nat) := List.replicate length "a"
    let style (s : LabelStyle) (label : Datum) := named (s.format? label)
    [count a.visit.length, count (a.closure [a.start]).length, count a.states.size,
      .bool (a.accepts (word 4)),
      .bool (a.accepts ["b"]), .bool (d.accepts (word (max n 3))), count a.start,
      style .lines (.list [.int 1, .int 2]), style .clipped (.list [.int 1, .int 2]),
        style .clipped (.text "states"),
      style .blank (.int 0), .bool ((a.states[a.start]?.map (·.hasMove "a")).getD false),
      count ((a.states[a.start]?.bind (·.moves.lookup "b")).getD []).length, .text "Dot"]

def typeFigures (n : Nat) : Except Error (List Datum) := do
  let (types, side, ts) ← onTypes (typeTree n)
  let some last := types.getLast? | throw (.types .outOfRange)
  let some first := types.head? | throw (.types .outOfRange)
  let join ← onTypes (ts.join last (some side))
  let join' ← onTypes (ts.join side (some last))
  let scopes := variableScope types
  let found (name : String) :=
    named ((scopes.find ScopeTree.root name).map fun v => (scopes.getVar v).name)
  return [.bool (← onTypes (ts.conforms last first)), named (join.map ts.name),
    named (join'.map ts.name),
    .bool (TypeId.isBypass TypeId.auto), .bool (TypeId.isBypass first),
      .bool (← onTypes (ts.conforms first last)),
    .bool (← onTypes (ts.conforms last side)), found "v0", found "w0",
    .bool (scopes.isLocal ScopeTree.root "v0"), .bool (TypeId.same TypeId.auto first),
    count (scopes.get ScopeTree.root).locals.length, .bool (TypeId.same first first),
    count (ts.displayType TypeId.self).length, count (ts.displayType first).length,
      count ts.context.length]

def lookaheadTables (g : Grammar Cool.FragmentRule) :
    Except GrammarError (FirstTable Cool.FragmentRule × FollowTable) := do
  let firsts ← g.firsts
  return (firsts, ← g.follows firsts)

def lookaheadFigures (n : Nat) : Except Error (List Datum) := do
  let tables ← onGrammar ((List.replicate n Cool.grammar).mapM lookaheadTables)
  match tables.getLast? with
  | none => throw (.types .absent)
  | some (firsts, follows) =>
    let g := Cool.grammar
    let first (name : String) := ((g.find? name).bind firsts.get?).getD {}
    let ends := (g.start.bind follows.get?).getD {}
    let joined := ((first "<feature-list>").join (first "<func-call>")).join ends
    let sum (sizes : List Nat) := count (sizes.foldr (· + ·) 0)
    return [sum (tables.map (·.1.total)), sum (tables.map (·.2.total)), count tables.length,
      count joined.size,
      named ends.names.head?, .text Cool.grammar.endMark.name,
        .bool ((first "<feature-list>").epsilon)]

def figures (w : Workload) (n : Nat) : Except Error (List Datum) :=
  match w with
  | .parsing => .ok (parsingFigures n)
  | .semantics => semanticFigures n
  | .pipeline => pipelineFigures n
  | .parserBuilding => parserFigures n
  | .grammarBuilding => grammarFigures n
  | .automata => .ok (automatonFigures n)
  | .typeSystem => typeFigures n
  | .lookaheads => lookaheadFigures n

end Workload

end AutoCool
