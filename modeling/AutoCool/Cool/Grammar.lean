import AutoCool.Cool.Fragment

/-!
# The grammar of Cool

The grammar is a table of productions, each with the rule that builds the value of its head from the
values of its right side. Operators are layered from comparison down to dispatch, and lists are
right recursive. The parser is built from the table once.
-/

namespace AutoCool.Cool

/-- A rule builds the value of a head from the values of a right side. Rules are put together from
smaller ones: the value at a place, a list, a tuple, or a node. -/
abbrev FragmentRule := List Fragment → Except LR1.EvaluationError Fragment

namespace FragmentRule

/-- The value at a place of the right side. Places count from 1. -/
def arg (i : Nat) : FragmentRule := fun values => (values[i - 1]?).elim (.error .missingValue) .ok

def absent : FragmentRule := fun _ => .ok .absent

def list (items : List FragmentRule) : FragmentRule := fun values => do
  return .list (← items.mapM fun item => item values)

def tuple (items : List FragmentRule) : FragmentRule := fun values => do
  return .tuple (← items.mapM fun item => item values)

def cons (first rest : FragmentRule) : FragmentRule := fun values => do
  (← first values).cons (← rest values)

def node (kind : NodeKind) (parts : List FragmentRule) : FragmentRule := fun values => do
  Fragment.make kind (← parts.mapM fun part => part values)

def call (object dispatch : FragmentRule) : FragmentRule := fun values => do
  Fragment.call (← object values) (← dispatch values)

def unary (op : UnaryOp) : FragmentRule := node (.unary op) [arg 2]

def binary (op : BinaryOp) : FragmentRule := node (.binary op) [arg 1, arg 3]

def atom (kind : AtomKind) : FragmentRule := node (.atom kind) [arg 1]

end FragmentRule

def nonterminalNames : String :=
  "<class-list> <def-class> <feature-list> <feature> <param-list> <param> <expr> <member-call> " ++
  "<expr-list> <let-list> <case-list> <truth-expr> <comp-expr> <arith> <term> <factor> " ++
  "<factor-2> <atom> <func-call> <arg-list>"

def terminalNames : String :=
  "class inherits if then else fi while loop pool let in case of esac ; : , . @ ( ) \x7b \x7d " ++
  "<- => + - * / isvoid ~ not < <= = new id type integer string bool"

open FragmentRule in
/-- The productions: the name of a head, the words of a right side, and a rule. -/
def productionTable : List (String × String × FragmentRule) := [
  ("<program>", "<class-list>", node .program [arg 1]),
  ("<class-list>", "<def-class> <class-list>", cons (arg 1) (arg 2)),
  ("<class-list>", "<def-class>", list [arg 1]),
  ("<def-class>", "class type \x7b <feature-list> \x7d ;", node .classDecl [arg 2, absent, arg 4]),
  ("<def-class>", "class type inherits type \x7b <feature-list> \x7d ;",
    node .classDecl [arg 2, arg 4, arg 6]),
  ("<feature-list>", "<feature> <feature-list>", cons (arg 1) (arg 2)),
  ("<feature-list>", "", list []),
  ("<feature>", "id : type ;", node .attributeDecl [arg 1, arg 3, absent]),
  ("<feature>", "id : type <- <expr> ;", node .attributeDecl [arg 1, arg 3, arg 5]),
  ("<feature>", "id ( <param-list> ) : type \x7b <expr> \x7d ;",
    node .methodDecl [arg 1, arg 3, arg 6, arg 8]),
  ("<feature>", "id ( ) : type \x7b <expr> \x7d ;",
    node .methodDecl [arg 1, list [], arg 5, arg 7]),
  ("<param-list>", "<param>", list [arg 1]),
  ("<param-list>", "<param> , <param-list>", cons (arg 1) (arg 3)),
  ("<param>", "id : type", tuple [arg 1, arg 3]),
  ("<expr>", "if <expr> then <expr> else <expr> fi", node .ifThenElse [arg 2, arg 4, arg 6]),
  ("<expr>", "while <expr> loop <expr> pool", node .whileLoop [arg 2, arg 4]),
  ("<expr>", "\x7b <expr-list> \x7d", node .block [arg 2]),
  ("<expr>", "let <let-list> in <expr>", node .letIn [arg 2, arg 4]),
  ("<expr>", "case <expr> of <case-list> esac", node .caseOf [arg 2, arg 4]),
  ("<expr>", "id <- <expr>", node .assign [arg 1, arg 3]),
  ("<expr>", "<truth-expr>", arg 1),
  ("<expr-list>", "<expr> ;", list [arg 1]),
  ("<expr-list>", "<expr> ; <expr-list>", cons (arg 1) (arg 3)),
  ("<let-list>", "id : type", list [tuple [arg 1, arg 3, absent]]),
  ("<let-list>", "id : type <- <expr>", list [tuple [arg 1, arg 3, arg 5]]),
  ("<let-list>", "id : type , <let-list>", cons (tuple [arg 1, arg 3, absent]) (arg 5)),
  ("<let-list>", "id : type <- <expr> , <let-list>", cons (tuple [arg 1, arg 3, arg 5]) (arg 7)),
  ("<case-list>", "id : type => <expr> ;", list [tuple [arg 1, arg 3, arg 5]]),
  ("<case-list>", "id : type => <expr> ; <case-list>", cons (tuple [arg 1, arg 3, arg 5]) (arg 7)),
  ("<truth-expr>", "not <truth-expr>", unary .not),
  ("<truth-expr>", "<comp-expr>", arg 1),
  ("<comp-expr>", "<comp-expr> <= <arith>", binary .lessEqual),
  ("<comp-expr>", "<comp-expr> < <arith>", binary .less),
  ("<comp-expr>", "<comp-expr> = <arith>", binary .equal),
  ("<comp-expr>", "<arith>", arg 1),
  ("<arith>", "<arith> + <term>", binary .plus),
  ("<arith>", "<arith> - <term>", binary .minus),
  ("<arith>", "<term>", arg 1),
  ("<term>", "<term> * <factor>", binary .star),
  ("<term>", "<term> / <factor>", binary .div),
  ("<term>", "<factor>", arg 1),
  ("<factor>", "isvoid <factor-2>", unary .isVoid),
  ("<factor>", "<factor-2>", arg 1),
  ("<factor-2>", "~ <atom>", unary .complement),
  ("<factor-2>", "<atom>", arg 1),
  ("<atom>", "<atom> <func-call>", call (arg 1) (arg 2)),
  ("<atom>", "<member-call>", arg 1),
  ("<atom>", "new type", node .new [arg 2]),
  ("<atom>", "( <expr> )", arg 2),
  ("<atom>", "id", atom .name),
  ("<atom>", "integer", atom .integer),
  ("<atom>", "string", atom .string),
  ("<atom>", "bool", atom .bool),
  ("<func-call>", ". id ( <arg-list> )", tuple [arg 2, arg 4]),
  ("<func-call>", ". id ( )", tuple [arg 2, list []]),
  ("<func-call>", "@ type . id ( <arg-list> )", tuple [arg 4, arg 6, arg 2]),
  ("<func-call>", "@ type . id ( )", tuple [arg 4, list [], arg 2]),
  ("<arg-list>", "<expr>", list [arg 1]),
  ("<arg-list>", "<expr> , <arg-list>", cons (arg 1) (arg 3)),
  ("<member-call>", "id ( <arg-list> )", node .selfCall [arg 1, arg 3]),
  ("<member-call>", "id ( )", node .selfCall [arg 1, list []])]

def symbolsOf (nonterminals terminals : String) : Grammar FragmentRule :=
  let g : Grammar FragmentRule := {}
  let g := (g.pushStart "<program>").2
  let g := (g.nonterminalsOf nonterminals).2
  (g.terminalsOf terminals).2

def symbols : Grammar FragmentRule := symbolsOf nonterminalNames terminalNames

def symbol (name : String) : Symbol := (symbols.find? name).getD symbols.endMark

/-- The production of an entry of the table. A right side without words is the empty word. -/
def productionOf (head body : String) (rule : FragmentRule) : Production FragmentRule :=
  let words := Text.words body
  { head := symbol head
    body := if words.isEmpty then .epsilon else .sentence (words.map symbol)
    slots := some (some (.rule rule) :: words.map fun _ => none) }

def grammarOf (productions : List (Production FragmentRule)) : Grammar FragmentRule :=
  (symbols.addProductions productions).1

def grammar : Grammar FragmentRule :=
  grammarOf (productionTable.map fun (head, body, rule) => productionOf head body rule)

def parser : LR1.Parser FragmentRule :=
  (LR1.Parser.ofGrammar grammar).toOption.getD
    { grammar, rules := #[], automaton := { states := #[], start := 0 }, rows := #[] }

def evaluate (productions : List (Production FragmentRule)) (operations : List LR1.Operation)
    (tokens : List Token) : Except LR1.EvaluationError (Option Fragment) :=
  LR1.evaluate (fun rule => rule) Fragment.token productions operations tokens

/-- The outcome of parsing a text: a program, or the states and the tokens at which there was
nothing to do. -/
inductive Parsed
  | program (p : Program)
  | rejected (stack : List Nat) (rest : List Token)

def parse (tokens : List Token) : Parsed :=
  match parser.parse tokens with
  | .rejected stack rest => .rejected stack rest
  | .overrun | .endless => .rejected [] []
  | .accepted productions operations =>
    match evaluate productions operations tokens with
    | .ok (some fragment) => (Program.ofFragment? fragment).elim (.rejected [] tokens) .program
    | _ => .rejected [] tokens

def Parsed.report : Parsed → String
  | .program _ => ""
  | .rejected stack rest =>
    let outcome : LR1.Parser.Outcome FragmentRule := .rejected stack rest
    outcome.report

end AutoCool.Cool
