import AutoCool.Cool.Grammar
import AutoCool.Proofs.Grammar.First

/-!
# The symbols of the grammar of Cool

The symbols are declared by their names and found by their names. `Sign` lists them: the
nonterminals, the marks, which are keywords, operators and punctuation, and the carriers, whose
tokens are kept in a program. No name is declared twice, so a name finds the symbol it was declared
for (`symbol_name`).
-/

namespace AutoCool

namespace Text

/-- The words of a text as lists of letters, where `word` holds the letters of the word being read,
last one first. -/
def lettersFrom (word : List Char) : List Char → List (List Char)
  | [] => if word.isEmpty then [] else [word.reverse]
  | c :: cs =>
    if isBlank c then
      if word.isEmpty then lettersFrom [] cs else word.reverse :: lettersFrom [] cs
    else lettersFrom (c :: word) cs

theorem wordsFrom_eq (word cs : List Char) :
    wordsFrom word cs = (lettersFrom word cs).map String.ofList := by
  fun_induction lettersFrom word cs with
  | case1 word h => simp [wordsFrom, h]
  | case2 word h => simp [wordsFrom, h]
  | case3 word c cs hc h ih => simp [wordsFrom, hc, h, ih]
  | case4 word c cs hc h ih => simp [wordsFrom, hc, h, ih]
  | case5 word c cs hc ih => simp [wordsFrom, hc, ih]

theorem words_eq (h : s.toList = cs) : words s = (lettersFrom [] cs).map String.ofList := by
  rw [words, h, wordsFrom_eq]

theorem toList_append_ofList (h : s.toList = cs) : (s ++ String.ofList ds).toList = cs ++ ds := by
  rw [String.toList_append, h, String.toList_ofList]

/-- A number that stands for a text. -/
def code (s : String) : Nat := s.toList.foldl (fun n c => 256 * n + c.toNat) 0

end Text

/-- Whether the numbers in a list are different. -/
def distinct : List Nat → Bool
  | [] => true
  | n :: ns => ns.all (fun m => !(m.beq n)) && distinct ns

theorem nodup_of_distinct {l : List α} (h : distinct (l.map f) = true) : l.Nodup := by
  induction l with
  | nil => exact .nil
  | cons x l ih =>
    rw [List.map_cons, distinct, Bool.and_eq_true, List.all_eq_true] at h
    refine List.nodup_cons.mpr ⟨fun hx => ?_, ih h.2⟩
    simpa using h.1 (f x) (List.mem_map.mpr ⟨x, hx, rfl⟩)

namespace Grammar

variable {ρ : Type}

/-! ### Declaring new names -/

/-- The symbols that declaring some names makes. -/
def declared (kind : SymbolKind) (generation : Nat) : Nat → List String → List Symbol
  | _, [] => []
  | n, w :: ws => { id := n, name := w, kind, generation } :: declared kind generation (n + 1) ws

/-- The entries of some symbols in a table of names. -/
def entries (ss : List Symbol) : List (String × Symbol) := ss.map fun s => (s.name, s)

theorem map_fst_entries (ss : List Symbol) : (entries ss).map (·.1) = ss.map (·.name) := by
  rw [entries, List.map_map]
  rfl

theorem bindName_of_notMem {names : List (String × Symbol)} (h : s.name ∉ names.map (·.1)) :
    bindName names s = names ++ [(s.name, s)] := by
  have hany : names.any (·.1 == s.name) = false := by
    rw [List.any_eq_false]
    intro e he hname
    exact h (List.mem_map.mpr ⟨e, he, eq_of_beq hname⟩)
  rw [bindName, hany, if_neg Bool.false_ne_true]

theorem nodup_after_push {names : List (String × Symbol)}
    (h : (names.map (·.1) ++ s.name :: ws).Nodup) :
    bindName names s = names ++ [(s.name, s)] ∧
    ((names ++ [(s.name, s)]).map (·.1) ++ ws).Nodup := by
  refine ⟨bindName_of_notMem fun hmem => ?_, by simpa using h⟩
  exact (List.nodup_append.mp h).2.2 s.name hmem s.name (.head _) rfl

/-- Declares a name as a terminal or as a nonterminal. -/
def push : SymbolKind → Grammar ρ → String → Symbol × Grammar ρ
  | .terminal => pushTerminal
  | _ => pushNonterminal

theorem foldl_push_eq (kind : SymbolKind) (hkind : kind ≠ .endMark) (g : Grammar ρ)
    (ss : List Symbol) (ws : List String) (h : (g.names.map (·.1) ++ ws).Nodup) :
    let new := declared kind g.earlier.length g.nextId ws
    (ws.foldl (fun (ss, g) name => let (s, g) := push kind g name; (ss ++ [s], g)) (ss, g)).2 =
      { g with
        nextId := g.nextId + ws.length
        terminals := g.terminals ++ if kind = .terminal then new else []
        nonterminals := g.nonterminals ++ if kind = .terminal then [] else new
        names := g.names ++ entries new } := by
  induction ws generalizing g ss with
  | nil => simp [declared, entries]
  | cons w ws ih =>
    obtain ⟨hbind, hrest⟩ := nodup_after_push (s := g.nextSymbol w kind) h
    have hnames : (push kind g w).2.names = g.names ++ [(w, g.nextSymbol w kind)] := by
      cases kind with
      | terminal | nonterminal => exact hbind
      | endMark => cases hkind rfl
    rw [List.foldl_cons]
    refine (ih (push kind g w).2 _ (hnames ▸ hrest)).trans ?_
    rw [hnames]
    cases kind with
    | terminal | nonterminal =>
      simp [push, pushTerminal, pushNonterminal, declared, entries, nextSymbol, Nat.add_assoc,
        Nat.add_comm 1]
    | endMark => cases hkind rfl

end Grammar

namespace Cool

/-- The levels of expressions, from the loosest to the tightest. Each has a nonterminal of its
own. -/
inductive Level
  | expr | truth | comp | arith | term | factor | factor2 | atom
deriving DecidableEq

/-- The nonterminals of the grammar. -/
inductive Nonterminal
  | program | classList | defClass | featureList | feature | paramList | param | memberCall
  | exprList | letList | caseList
  | funcCall | argList
  | level (l : Level)
deriving DecidableEq

/-- Keywords, operators and punctuation, in the order of their declaration. -/
inductive Mark
  | kwClass | kwInherits | kwIf | kwThen | kwElse | kwFi | kwWhile | kwLoop | kwPool | kwLet | kwIn
  | kwCase | kwOf | kwEsac
  | semicolon | colon | comma | dot | atSign | openParen | closeParen | openBrace | closeBrace
  | assign | arrow
  | plus | minus | star | div | isVoid | complement | not | less | lessEqual | equal | new
deriving DecidableEq

/-- The terminals whose tokens are kept in a program: names, types and literals. -/
inductive Carrier
  | id | type | integer | string | bool
deriving DecidableEq

/-- The symbols of the grammar. -/
inductive Sign
  | nt (n : Nonterminal)
  | mark (m : Mark)
  | carrier (c : Carrier)
deriving DecidableEq

/-- The nonterminals in the order of their declaration. -/
def Nonterminal.all : List Nonterminal :=
  [.program, .classList, .defClass, .featureList, .feature, .paramList, .param, .level .expr,
    .memberCall, .exprList, .letList,
    .caseList, .level .truth, .level .comp, .level .arith, .level .term, .level .factor,
      .level .factor2, .level .atom,
    .funcCall, .argList]

def Mark.all : List Mark :=
  [.kwClass, .kwInherits, .kwIf, .kwThen, .kwElse, .kwFi, .kwWhile, .kwLoop, .kwPool, .kwLet, .kwIn,
    .kwCase, .kwOf, .kwEsac,
    .semicolon, .colon, .comma, .dot, .atSign, .openParen, .closeParen, .openBrace, .closeBrace,
      .assign, .arrow,
    .plus, .minus, .star, .div, .isVoid, .complement, .not, .less, .lessEqual, .equal, .new]

def Carrier.all : List Carrier := [.id, .type, .integer, .string, .bool]

/-- How tightly a level binds. -/
def Level.rank : Level → Nat
  | .expr => 0
  | .truth => 1
  | .comp => 2
  | .arith => 3
  | .term => 4
  | .factor => 5
  | .factor2 => 6
  | .atom => 7

def Level.name : Level → String
  | .expr => "<expr>"
  | .truth => "<truth-expr>"
  | .comp => "<comp-expr>"
  | .arith => "<arith>"
  | .term => "<term>"
  | .factor => "<factor>"
  | .factor2 => "<factor-2>"
  | .atom => "<atom>"

def Nonterminal.name : Nonterminal → String
  | .program => "<program>"
  | .classList => "<class-list>"
  | .defClass => "<def-class>"
  | .featureList => "<feature-list>"
  | .feature => "<feature>"
  | .paramList => "<param-list>"
  | .param => "<param>"
  | .memberCall => "<member-call>"
  | .exprList => "<expr-list>"
  | .letList => "<let-list>"
  | .caseList => "<case-list>"
  | .funcCall => "<func-call>"
  | .argList => "<arg-list>"
  | .level l => l.name

/-- The number of the declaration. Number 0 is that of the end mark. -/
def Nonterminal.id : Nonterminal → Nat
  | .program => 1
  | .classList => 2
  | .defClass => 3
  | .featureList => 4
  | .feature => 5
  | .paramList => 6
  | .param => 7
  | .level .expr => 8
  | .memberCall => 9
  | .exprList => 10
  | .letList => 11
  | .caseList => 12
  | .level l => l.rank + 12
  | .funcCall => 20
  | .argList => 21

def Mark.name : Mark → String
  | .kwClass => "class"
  | .kwInherits => "inherits"
  | .kwIf => "if"
  | .kwThen => "then"
  | .kwElse => "else"
  | .kwFi => "fi"
  | .kwWhile => "while"
  | .kwLoop => "loop"
  | .kwPool => "pool"
  | .kwLet => "let"
  | .kwIn => "in"
  | .kwCase => "case"
  | .kwOf => "of"
  | .kwEsac => "esac"
  | .semicolon => ";"
  | .colon => ":"
  | .comma => ","
  | .dot => "."
  | .atSign => "@"
  | .openParen => "("
  | .closeParen => ")"
  | .openBrace => "\x7b"
  | .closeBrace => "\x7d"
  | .assign => "<-"
  | .arrow => "=>"
  | .plus => "+"
  | .minus => "-"
  | .star => "*"
  | .div => "/"
  | .isVoid => "isvoid"
  | .complement => "~"
  | .not => "not"
  | .less => "<"
  | .lessEqual => "<="
  | .equal => "="
  | .new => "new"

def Carrier.name : Carrier → String
  | .id => "id"
  | .type => "type"
  | .integer => "integer"
  | .string => "string"
  | .bool => "bool"

namespace Sign

def nonterminals : List Sign := Nonterminal.all.map .nt

def terminals : List Sign := Mark.all.map .mark ++ Carrier.all.map .carrier

/-- The signs in the order of their declaration. -/
def all : List Sign := nonterminals ++ terminals

/-- The number of the declaration. Terminals follow the nonterminals. -/
def id : Sign → Nat
  | .nt n => n.id
  | .mark m => m.ctorIdx + 22
  | .carrier c => c.ctorIdx + 58

def name : Sign → String
  | .nt n => n.name
  | .mark m => m.name
  | .carrier c => c.name

def kind : Sign → SymbolKind
  | .nt _ => .nonterminal
  | .mark _ | .carrier _ => .terminal

/-- The symbol that is declared for a sign. -/
def symbol (s : Sign) : Symbol := { id := s.id, name := s.name, kind := s.kind }

theorem mem_nonterminals (n : Nonterminal) : .nt n ∈ nonterminals := by
  refine List.mem_map_of_mem ?_
  rcases n with _ | _ | _ | _ | _ | _ | _ | _ | _ | _ | _ | _ | _ | l
  case level => cases l <;> decide
  all_goals decide

theorem mem_terminals (h : s.kind = .terminal) : s ∈ terminals := by
  cases s with
  | nt n => cases h
  | mark m => exact List.mem_append_left _ (List.mem_map_of_mem (by cases m <;> decide))
  | carrier c => exact List.mem_append_right _ (List.mem_map_of_mem (by cases c <;> decide))

theorem mem_all (s : Sign) : s ∈ all := by
  cases s with
  | nt n => exact List.mem_append_left _ (mem_nonterminals n)
  | mark m => exact List.mem_append_right _ (mem_terminals rfl)
  | carrier c => exact List.mem_append_right _ (mem_terminals rfl)

theorem id_injective : Function.Injective id := by
  have hids : all.map id = List.range' 1 62 := by decide +kernel
  intro s t h
  exact List.inj_on_of_nodup_map (hids ▸ List.nodup_range' 1) s.mem_all t.mem_all h

theorem symbol_injective : Function.Injective symbol :=
  fun _ _ h => id_injective (congrArg Symbol.id h)

end Sign

/-! ### What is declared -/

theorem words_nonterminalNames : Text.words nonterminalNames =
      Nonterminal.all.tail.map Nonterminal.name :=
  (Text.words_eq (Text.toList_append_ofList (Text.toList_append_ofList String.toList_ofList))).trans
    rfl

theorem words_terminalNames : Text.words terminalNames = Sign.terminals.map Sign.name :=
  (Text.words_eq (Text.toList_append_ofList String.toList_ofList)).trans rfl

theorem names_nodup : ("$" :: Sign.all.map Sign.name).Nodup :=
  nodup_of_distinct (f := Text.code) (by decide +kernel)

theorem symbols_eq : symbols = {
    nextId := 63
    terminals := Sign.terminals.map Sign.symbol
    nonterminals := Sign.nonterminals.map Sign.symbol
    start := some (Sign.nt .program).symbol
    names := ("$", Symbol.endMark 0) :: Grammar.entries (Sign.all.map Sign.symbol) } := by
  have hnames := names_nodup
  rw [Sign.all, List.map_append, ← List.cons_append] at hnames
  have hstart : (({} : Grammar FragmentRule).pushStart "<program>").2 = {
      nextId := 2
      nonterminals := [(Sign.nt .program).symbol]
      start := some (Sign.nt .program).symbol
      names := [("$", Symbol.endMark 0), ("<program>", (Sign.nt .program).symbol)] } := by
    rw [Grammar.pushStart, Grammar.bindName_of_notMem]
    · rfl
    · decide
  have hnts : ((({} : Grammar FragmentRule).pushStart "<program>").2.nonterminalsOf
      nonterminalNames).2 = {
      nextId := 22
      nonterminals := Sign.nonterminals.map Sign.symbol
      start := some (Sign.nt .program).symbol
      names := ("$", Symbol.endMark 0) :: Grammar.entries
        (Sign.nonterminals.map Sign.symbol) } := by
    rw [hstart, Grammar.nonterminalsOf, words_nonterminalNames]
    exact Grammar.foldl_push_eq .nonterminal nofun _ [] _ (List.nodup_append.mp hnames).1
  rw [symbols, symbolsOf, hnts, Grammar.terminalsOf, words_terminalNames]
  refine Grammar.foldl_push_eq .terminal nofun _ [] _ ?_
  rw [List.map_cons, Grammar.map_fst_entries, List.map_map]
  exact hnames

theorem symbol_name (s : Sign) : Cool.symbol s.name = s.symbol := by
  have hkeys : (symbols.names.map (·.1)).Nodup := by
    rw [symbols_eq, List.map_cons, Grammar.map_fst_entries, List.map_map]
    exact names_nodup
  have hmem : (s.name, s.symbol) ∈ symbols.names := by
    rw [symbols_eq]
    exact .tail _ (List.mem_map.mpr ⟨s.symbol, List.mem_map_of_mem s.mem_all, rfl⟩)
  rw [Cool.symbol, Grammar.find?, lookup_eq_of_mem hkeys hmem, Option.getD_some]

end Cool

end AutoCool
