import AutoCool.Proofs.Cool.Fragment
import AutoCool.Proofs.Cool.Symbols

/-!
# The productions of Cool and what they mean

`Clause n ss` lists the productions with head `n` and right side `ss`. Every symbol stands for
something in a program (`Sign.Meaning`), and a clause says what its head stands for when the
meanings of the right side are given (`Clause.build`). The rules of the grammar work on fragments,
where nothing but the order of the parts tells what a part is; on the fragments of meanings they do
what the clauses say (`table_follows`).
-/

namespace AutoCool.Cool

/-! ### Meanings -/

/-- What a nonterminal stands for. A list that is never empty is its first item and the rest. -/
def Nonterminal.Meaning : Nonterminal → Type
  | .program => Program
  | .classList => ClassDecl × List ClassDecl
  | .defClass => ClassDecl
  | .featureList => List Feature
  | .feature => Feature
  | .paramList => Param × List Param
  | .param => Param
  | .exprList | .argList => Expr × List Expr
  | .letList => Binding × List Binding
  | .caseList => Branch × List Branch
  | .funcCall => Token × List Expr × Option Token
  | .memberCall | .level _ => Expr

/-- What a symbol stands for. A terminal stands for its token. -/
def Sign.Meaning : Sign → Type
  | .nt n => n.Meaning
  | .mark _ | .carrier _ => Token

/-- What the symbols of a right side stand for. -/
def Meanings : List Sign → Type
  | [] => Unit
  | s :: ss => s.Meaning × Meanings ss

open Fragment in
def Nonterminal.fragment : (n : Nonterminal) → n.Meaning → Fragment
  | .program, p => ofProgram p
  | .classList, (c, cs) => .list ((c :: cs).map ofClass)
  | .defClass, c => ofClass c
  | .featureList, fs => .list (List.map ofFeature fs)
  | .feature, f => ofFeature f
  | .paramList, (p, ps) => .list ((p :: ps).map ofParam)
  | .param, p => ofParam p
  | .exprList, (e, es) | .argList, (e, es) => .list (ofExprs (e :: es))
  | .letList, (b, bs) => .list (ofBindings (b :: bs))
  | .caseList, (b, bs) => .list (ofBranches (b :: bs))
  | .funcCall, (name, args, type) => ofDispatch name args type
  | .memberCall, e | .level _, e => ofExpr e

/-- The fragment of what a symbol stands for. -/
def Sign.fragment : (s : Sign) → s.Meaning → Fragment
  | .nt n, x => n.fragment x
  | .mark _, t | .carrier _, t => .token t

def fragments : (ss : List Sign) → Meanings ss → List Fragment
  | [], _ => []
  | s :: ss, (x, xs) => s.fragment x :: fragments ss xs

/-! ### Clauses -/

/-- The level of the expressions that an operator makes. -/
def UnaryOp.level : UnaryOp → Level
  | .not => .truth
  | .isVoid => .factor
  | .complement => .factor2

/-- The level that an operator asks of its operand. -/
def UnaryOp.slot : UnaryOp → Level
  | .not => .truth
  | .isVoid => .factor2
  | .complement => .atom

def UnaryOp.mark : UnaryOp → Mark
  | .not => .not
  | .isVoid => .isVoid
  | .complement => .complement

/-- The level of the expressions that an operator makes, which is also that of its left operand. -/
def BinaryOp.level : BinaryOp → Level
  | .lessEqual | .less | .equal => .comp
  | .plus | .minus => .arith
  | .star | .div => .term

def BinaryOp.mark : BinaryOp → Mark
  | .lessEqual => .lessEqual
  | .less => .less
  | .equal => .equal
  | .plus => .plus
  | .minus => .minus
  | .star => .star
  | .div => .div

def AtomKind.carrier : AtomKind → Carrier
  | .integer => .integer
  | .name => .id
  | .string => .string
  | .bool => .bool

/-- The next tighter level. -/
def Level.next : Level → Level
  | .expr => .truth
  | .truth => .comp
  | .comp => .arith
  | .arith => .term
  | .term => .factor
  | .factor => .factor2
  | .factor2 | .atom => .atom

/-- The productions, by head and right side. -/
inductive Clause : Nonterminal → List Sign → Type
  | program : Clause .program [.nt .classList]
  | classCons : Clause .classList [.nt .defClass, .nt .classList]
  | classLast : Clause .classList [.nt .defClass]
  | classPlain : Clause .defClass
      [.mark .kwClass, .carrier .type, .mark .openBrace, .nt .featureList, .mark .closeBrace,
        .mark .semicolon]
  | classInherits : Clause .defClass
      [.mark .kwClass, .carrier .type, .mark .kwInherits, .carrier .type, .mark .openBrace,
        .nt .featureList,
        .mark .closeBrace, .mark .semicolon]
  | featureCons : Clause .featureList [.nt .feature, .nt .featureList]
  | featureNil : Clause .featureList []
  | attribute : Clause .feature [.carrier .id, .mark .colon, .carrier .type, .mark .semicolon]
  | attributeInit : Clause .feature
      [.carrier .id, .mark .colon, .carrier .type, .mark .assign, .nt (.level .expr),
        .mark .semicolon]
  | method : Clause .feature
      [.carrier .id, .mark .openParen, .nt .paramList, .mark .closeParen, .mark .colon,
        .carrier .type, .mark .openBrace,
        .nt (.level .expr), .mark .closeBrace, .mark .semicolon]
  | methodNoParams : Clause .feature
      [.carrier .id, .mark .openParen, .mark .closeParen, .mark .colon, .carrier .type,
        .mark .openBrace,
        .nt (.level .expr), .mark .closeBrace, .mark .semicolon]
  | paramLast : Clause .paramList [.nt .param]
  | paramCons : Clause .paramList [.nt .param, .mark .comma, .nt .paramList]
  | param : Clause .param [.carrier .id, .mark .colon, .carrier .type]
  | ifThenElse : Clause (.level .expr)
      [.mark .kwIf, .nt (.level .expr), .mark .kwThen, .nt (.level .expr), .mark .kwElse,
        .nt (.level .expr), .mark .kwFi]
  | whileLoop : Clause (.level .expr)
      [.mark .kwWhile, .nt (.level .expr), .mark .kwLoop, .nt (.level .expr), .mark .kwPool]
  | block : Clause (.level .expr) [.mark .openBrace, .nt .exprList, .mark .closeBrace]
  | letIn : Clause (.level .expr) [.mark .kwLet, .nt .letList, .mark .kwIn, .nt (.level .expr)]
  | caseOf : Clause (.level .expr)
      [.mark .kwCase, .nt (.level .expr), .mark .kwOf, .nt .caseList, .mark .kwEsac]
  | assign : Clause (.level .expr) [.carrier .id, .mark .assign, .nt (.level .expr)]
  /-- An expression of a level is one of every looser level. -/
  | loosen (l : Level) (h : l ≠ .atom) : Clause (.level l) [.nt (.level l.next)]
  | exprLast : Clause .exprList [.nt (.level .expr), .mark .semicolon]
  | exprCons : Clause .exprList [.nt (.level .expr), .mark .semicolon, .nt .exprList]
  | letLast : Clause .letList [.carrier .id, .mark .colon, .carrier .type]
  | letLastInit : Clause .letList [.carrier .id, .mark .colon, .carrier .type, .mark .assign,
      .nt (.level .expr)]
  | letCons : Clause .letList [.carrier .id, .mark .colon, .carrier .type, .mark .comma,
      .nt .letList]
  | letConsInit : Clause .letList
      [.carrier .id, .mark .colon, .carrier .type, .mark .assign, .nt (.level .expr), .mark .comma,
        .nt .letList]
  | caseLast : Clause .caseList
      [.carrier .id, .mark .colon, .carrier .type, .mark .arrow, .nt (.level .expr),
        .mark .semicolon]
  | caseCons : Clause .caseList
      [.carrier .id, .mark .colon, .carrier .type, .mark .arrow, .nt (.level .expr),
        .mark .semicolon, .nt .caseList]
  | unary (op : UnaryOp) : Clause (.level op.level) [.mark op.mark, .nt (.level op.slot)]
  /-- Binary operators associate to the left. -/
  | binary (op : BinaryOp) : Clause (.level op.level)
      [.nt (.level op.level), .mark op.mark, .nt (.level op.level.next)]
  | call : Clause (.level .atom) [.nt (.level .atom), .nt .funcCall]
  | member : Clause (.level .atom) [.nt .memberCall]
  | new : Clause (.level .atom) [.mark .new, .carrier .type]
  | paren : Clause (.level .atom) [.mark .openParen, .nt (.level .expr), .mark .closeParen]
  | literal (kind : AtomKind) : Clause (.level .atom) [.carrier kind.carrier]
  | dispatch : Clause .funcCall
      [.mark .dot, .carrier .id, .mark .openParen, .nt .argList, .mark .closeParen]
  | dispatchNoArgs : Clause .funcCall [.mark .dot, .carrier .id, .mark .openParen,
      .mark .closeParen]
  | dispatchAt : Clause .funcCall
      [.mark .atSign, .carrier .type, .mark .dot, .carrier .id, .mark .openParen, .nt .argList,
        .mark .closeParen]
  | dispatchAtNoArgs : Clause .funcCall
      [.mark .atSign, .carrier .type, .mark .dot, .carrier .id, .mark .openParen, .mark .closeParen]
  | argLast : Clause .argList [.nt (.level .expr)]
  | argCons : Clause .argList [.nt (.level .expr), .mark .comma, .nt .argList]
  | selfCall : Clause .memberCall [.carrier .id, .mark .openParen, .nt .argList, .mark .closeParen]
  | selfCallNoArgs : Clause .memberCall [.carrier .id, .mark .openParen, .mark .closeParen]

namespace Clause

variable {n : Nonterminal} {ss : List Sign}

/-- What the head of a clause stands for, given what the right side stands for. -/
def build : Clause n ss → Meanings ss → n.Meaning
  | .program, ((c, cs), _) => (⟨c :: cs⟩ : Program)
  | .classCons, (c, (d, ds), _) => (c, d :: ds)
  | .classLast, (c, _) => (c, [])
  | .classPlain, (_, name, _, features, _) => ({ name, features } : ClassDecl)
  | .classInherits, (_, name, _, parent, _, features, _) =>
    ({ name, parent := some parent, features } : ClassDecl)
  | .featureCons, (f, fs, _) => List.cons f fs
  | .featureNil, _ => ([] : List Feature)
  | .attribute, (name, _, type, _) => Feature.attribute name type none
  | .attributeInit, (name, _, type, _, value, _) => Feature.attribute name type (some value)
  | .method, (name, _, (p, ps), _, _, type, _, body, _) => Feature.method name (p :: ps) type body
  | .methodNoParams, (name, _, _, _, type, _, body, _) => Feature.method name [] type body
  | .paramLast, (p, _) => (p, [])
  | .paramCons, (p, _, (q, qs), _) => (p, q :: qs)
  | .param, (name, _, type, _) => ({ name, type } : Param)
  | .ifThenElse, (_, condition, _, ifBody, _, elseBody, _) =>
    Expr.ifThenElse condition ifBody elseBody
  | .whileLoop, (_, condition, _, body, _) => Expr.whileLoop condition body
  | .block, (_, (e, es), _) => Expr.block (e :: es)
  | .letIn, (_, (b, bs), _, body, _) => Expr.letIn (b :: bs) body
  | .caseOf, (_, subject, _, (b, bs), _) => Expr.caseOf subject (b :: bs)
  | .assign, (name, _, value, _) => Expr.assign name value
  | .loosen _ _, (e, _) => e
  | .exprLast, (e, _) => (e, [])
  | .exprCons, (e, _, (f, fs), _) => (e, f :: fs)
  | .letLast, (name, _, type, _) => (.mk name type none, [])
  | .letLastInit, (name, _, type, _, value, _) => (.mk name type (some value), [])
  | .letCons, (name, _, type, _, (b, bs), _) => (.mk name type none, b :: bs)
  | .letConsInit, (name, _, type, _, value, _, (b, bs), _) => (.mk name type (some value), b :: bs)
  | .caseLast, (name, _, type, _, body, _) => (.mk name type body, [])
  | .caseCons, (name, _, type, _, body, _, (b, bs), _) => (.mk name type body, b :: bs)
  | .unary op, (_, operand, _) => Expr.unary op operand
  | .binary op, (left, _, right, _) => Expr.binary op left right
  | .call, (object, (name, args, type), _) => Expr.call object name args type
  | .member, (e, _) => e
  | .new, (_, type, _) => Expr.new type
  | .paren, (_, e, _) => e
  | .literal kind, (t, _) => Expr.atom kind t
  | .dispatch, (_, name, _, (e, es), _) => (name, e :: es, none)
  | .dispatchNoArgs, (_, name, _) => (name, [], none)
  | .dispatchAt, (_, type, _, name, _, (e, es), _) => (name, e :: es, some type)
  | .dispatchAtNoArgs, (_, type, _, name, _) => (name, [], some type)
  | .argLast, (e, _) => (e, [])
  | .argCons, (e, _, (f, fs), _) => (e, f :: fs)
  | .selfCall, (name, _, (e, es), _) => Expr.selfCall name (e :: es)
  | .selfCallNoArgs, (name, _) => Expr.selfCall name []

/-- The clauses in the order of the table. -/
def all : List (Σ n ss, Clause n ss) :=
  [⟨_, _, .program⟩, ⟨_, _, .classCons⟩, ⟨_, _, .classLast⟩, ⟨_, _, .classPlain⟩,
    ⟨_, _, .classInherits⟩,
    ⟨_, _, .featureCons⟩, ⟨_, _, .featureNil⟩, ⟨_, _, .attribute⟩, ⟨_, _, .attributeInit⟩,
      ⟨_, _, .method⟩,
    ⟨_, _, .methodNoParams⟩, ⟨_, _, .paramLast⟩, ⟨_, _, .paramCons⟩, ⟨_, _, .param⟩,
      ⟨_, _, .ifThenElse⟩,
    ⟨_, _, .whileLoop⟩, ⟨_, _, .block⟩, ⟨_, _, .letIn⟩, ⟨_, _, .caseOf⟩, ⟨_, _, .assign⟩,
      ⟨_, _, .loosen .expr (by decide)⟩,
    ⟨_, _, .exprLast⟩, ⟨_, _, .exprCons⟩, ⟨_, _, .letLast⟩, ⟨_, _, .letLastInit⟩, ⟨_, _, .letCons⟩,
      ⟨_, _, .letConsInit⟩,
    ⟨_, _, .caseLast⟩, ⟨_, _, .caseCons⟩, ⟨_, _, .unary .not⟩, ⟨_, _, .loosen .truth (by decide)⟩,
    ⟨_, _, .binary .lessEqual⟩, ⟨_, _, .binary .less⟩, ⟨_, _, .binary .equal⟩,
      ⟨_, _, .loosen .comp (by decide)⟩,
    ⟨_, _, .binary .plus⟩, ⟨_, _, .binary .minus⟩, ⟨_, _, .loosen .arith (by decide)⟩,
      ⟨_, _, .binary .star⟩,
    ⟨_, _, .binary .div⟩, ⟨_, _, .loosen .term (by decide)⟩, ⟨_, _, .unary .isVoid⟩,
      ⟨_, _, .loosen .factor (by decide)⟩,
    ⟨_, _, .unary .complement⟩, ⟨_, _, .loosen .factor2 (by decide)⟩, ⟨_, _, .call⟩,
      ⟨_, _, .member⟩, ⟨_, _, .new⟩,
    ⟨_, _, .paren⟩, ⟨_, _, .literal .name⟩, ⟨_, _, .literal .integer⟩, ⟨_, _, .literal .string⟩,
      ⟨_, _, .literal .bool⟩,
    ⟨_, _, .dispatch⟩, ⟨_, _, .dispatchNoArgs⟩, ⟨_, _, .dispatchAt⟩, ⟨_, _, .dispatchAtNoArgs⟩,
      ⟨_, _, .argLast⟩,
    ⟨_, _, .argCons⟩, ⟨_, _, .selfCall⟩, ⟨_, _, .selfCallNoArgs⟩]

end Clause

/-! ### The table -/

/-- An entry of the table and its clause: they have the same head and the same right side, and the
rule of the entry does on fragments what the clause says. -/
structure Follows (entry : String × String × FragmentRule) (c : Σ n ss, Clause n ss) : Prop where
  head : entry.1 = (Sign.nt c.1).name
  body : Text.words entry.2.1 = c.2.1.map Sign.name
  rule : ∀ xs : Meanings c.2.1, entry.2.2 (fragments c.2.1 xs) = .ok (c.1.fragment (c.2.2.build xs))

theorem table_follows : List.Forall₂ Follows productionTable Clause.all := by
  repeat' first
    | exact List.Forall₂.nil
    | refine List.Forall₂.cons ⟨rfl, (Text.words_eq String.toList_ofList).trans rfl,
        fun xs => ?_⟩ ?_
  all_goals first
    | rfl
    | exact FragmentRule.node_eq rfl rfl (Fragment.place_ofExpr _)
    | exact FragmentRule.node_block rfl
    | exact Fragment.call_ofDispatch ..

end AutoCool.Cool
