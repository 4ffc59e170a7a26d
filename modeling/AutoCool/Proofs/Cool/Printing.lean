import AutoCool.Proofs.Cool.Unambiguous

/-!
# Reading back what was printed

A program is printed as a list of pieces: the tokens that it keeps, and between them marks, for
which any token of the right type can be written. An operand is put in parentheses only where the
level of its own clause is looser than the one that its place asks for. Whatever tokens are written,
the parser accepts them and the program is built again, with the place of every node
(`parse_of_printed`).
-/

namespace AutoCool.Cool

open LR1 (SyntaxTree)

/-! ### Printing -/

/-- A piece of a printed program. -/
inductive Piece
  | mark (m : Mark)
  | token (t : Token)

/-- The token can be written for the piece. -/
def Piece.Admits : Piece → Token → Prop
  | .mark m, u => u.type = symbol m.name
  | .token t, u => u = t

/-- The tokens are written for the pieces, one for each. -/
def Written (ps : List Piece) (toks : List Token) : Prop := List.Forall₂ Piece.Admits ps toks

theorem Written.append (h : Written (ps ++ qs) toks) :
    ∃ us vs, toks = us ++ vs ∧ Written ps us ∧ Written qs vs := by
  have hflip : List.Forall₂ (flip Piece.Admits) toks (ps ++ qs) := h.flip
  exact ⟨_, _, (List.take_append_drop ps.length toks).symm,
    (List.forall₂_take_append toks ps qs hflip).flip,
    (List.forall₂_drop_append toks ps qs hflip).flip⟩

/-- The level of the clause that an expression is built with. -/
def Expr.level : Expr → Level
  | .ifThenElse .. | .whileLoop .. | .block .. | .letIn .. | .caseOf .. | .assign .. => .expr
  | .unary op _ => op.level
  | .binary op _ _ => op.level
  | .call .. | .selfCall .. | .new .. | .atom .. => .atom

/-- An expression at a place that asks for a level. -/
def enclose (slot level : Level) (ps : List Piece) : List Piece :=
  if level.rank < slot.rank then .mark .openParen :: (ps ++ [.mark .closeParen]) else ps

namespace Expr

/-- The type of a call of a method of a given type. -/
def piecesOfType : Option Token → List Piece
  | none => []
  | some type => [.mark .atSign, .token type]

mutual

def pieces : Expr → List Piece
  | .ifThenElse condition ifBody elseBody =>
    .mark .kwIf :: (condition.pieces ++
      .mark .kwThen :: (ifBody.pieces ++ .mark .kwElse :: (elseBody.pieces ++ [.mark .kwFi])))
  | .whileLoop condition body =>
    .mark .kwWhile :: (condition.pieces ++ .mark .kwLoop :: (body.pieces ++ [.mark .kwPool]))
  | .block expressions => .mark .openBrace :: (piecesOfBlock expressions ++ [.mark .closeBrace])
  | .letIn bindings body =>
    .mark .kwLet :: (piecesOfBindings bindings ++ .mark .kwIn :: body.pieces)
  | .caseOf subject branches =>
    .mark .kwCase :: (subject.pieces ++ .mark .kwOf ::
      (piecesOfBranches branches ++ [.mark .kwEsac]))
  | .assign name value => .token name :: .mark .assign :: value.pieces
  | .unary op operand => .mark op.mark :: enclose op.slot operand.level operand.pieces
  | .binary op left right =>
    enclose op.level left.level left.pieces ++
      .mark op.mark :: enclose op.level.next right.level right.pieces
  | .call object name args type =>
    enclose .atom object.level object.pieces ++ (piecesOfType type ++
      .mark .dot :: .token name :: .mark .openParen :: (piecesOfArgs args ++ [.mark .closeParen]))
  | .selfCall name args =>
    .token name :: .mark .openParen :: (piecesOfArgs args ++ [.mark .closeParen])
  | .new type => [.mark .new, .token type]
  | .atom _ t => [.token t]

/-- Every expression of a block ends with a semicolon. -/
def piecesOfBlock : List Expr → List Piece
  | [] => []
  | e :: es => e.pieces ++ .mark .semicolon :: piecesOfBlock es

/-- Arguments stand between commas. -/
def piecesOfArgs : List Expr → List Piece
  | [] => []
  | [e] => e.pieces
  | e :: f :: es => e.pieces ++ .mark .comma :: piecesOfArgs (f :: es)

/-- The variables of a `let` stand between commas. -/
def piecesOfBindings : List Binding → List Piece
  | [] => []
  | [.mk name type none] => [.token name, .mark .colon, .token type]
  | [.mk name type (some e)] =>
    .token name :: .mark .colon :: .token type :: .mark .assign :: e.pieces
  | .mk name type none :: b :: bs =>
    .token name :: .mark .colon :: .token type :: .mark .comma :: piecesOfBindings (b :: bs)
  | .mk name type (some e) :: b :: bs =>
    .token name :: .mark .colon :: .token type :: .mark .assign :: (e.pieces ++
      .mark .comma :: piecesOfBindings (b :: bs))

/-- Every branch of a `case` ends with a semicolon. -/
def piecesOfBranches : List Branch → List Piece
  | [] => []
  | .mk name type e :: bs =>
    .token name :: .mark .colon :: .token type :: .mark .arrow :: (e.pieces ++
      .mark .semicolon :: piecesOfBranches bs)

end

end Expr

/-- The parameters of a method stand between commas. -/
def piecesOfParams : List Param → List Piece
  | [] => []
  | [p] => [.token p.name, .mark .colon, .token p.type]
  | p :: q :: ps =>
    .token p.name :: .mark .colon :: .token p.type :: .mark .comma :: piecesOfParams (q :: ps)

def Feature.pieces : Feature → List Piece
  | .attribute name type none => [.token name, .mark .colon, .token type, .mark .semicolon]
  | .attribute name type (some e) =>
    .token name :: .mark .colon :: .token type :: .mark .assign :: (e.pieces ++ [.mark .semicolon])
  | .method name params type body =>
    .token name :: .mark .openParen :: (piecesOfParams params ++
      .mark .closeParen :: .mark .colon :: .token type :: .mark .openBrace :: (body.pieces ++
        [.mark .closeBrace, .mark .semicolon]))

def piecesOfParent : Option Token → List Piece
  | none => []
  | some parent => [.mark .kwInherits, .token parent]

def ClassDecl.pieces (c : ClassDecl) : List Piece :=
  .mark .kwClass :: .token c.name :: (piecesOfParent c.parent ++ .mark .openBrace ::
    (c.features.flatMap Feature.pieces ++
    [.mark .closeBrace, .mark .semicolon]))

def Program.pieces (p : Program) : List Piece := p.classes.flatMap ClassDecl.pieces

/-! ### The programs that can be printed -/

/-- The token is of the type of names, of types, or of a kind of literals. -/
def Carrier.Types (c : Carrier) (t : Token) : Prop := t.type = symbol c.name

namespace Expr

mutual

/-- Blocks, the variables of a `let` and the branches of a `case` are not empty, and tokens are of
the right types. -/
def WellFormed : Expr → Prop
  | .ifThenElse condition ifBody elseBody =>
    condition.WellFormed ∧ ifBody.WellFormed ∧ elseBody.WellFormed
  | .whileLoop condition body => condition.WellFormed ∧ body.WellFormed
  | .block expressions => expressions ≠ [] ∧ WellFormedAll expressions
  | .letIn bindings body => (bindings ≠ [] ∧ WellFormedBindings bindings) ∧ body.WellFormed
  | .caseOf subject branches => subject.WellFormed ∧ branches ≠ [] ∧ WellFormedBranches branches
  | .assign name value => Carrier.id.Types name ∧ value.WellFormed
  | .unary _ operand => operand.WellFormed
  | .binary _ left right => left.WellFormed ∧ right.WellFormed
  | .call object name args type =>
    object.WellFormed ∧ Carrier.id.Types name ∧ WellFormedAll args ∧ ∀ t ∈ type,
      Carrier.type.Types t
  | .selfCall name args => Carrier.id.Types name ∧ WellFormedAll args
  | .new type => Carrier.type.Types type
  | .atom kind t => kind.carrier.Types t

def WellFormedAll : List Expr → Prop
  | [] => True
  | e :: es => e.WellFormed ∧ WellFormedAll es

def WellFormedBindings : List Binding → Prop
  | [] => True
  | .mk name type none :: bs =>
    Carrier.id.Types name ∧ Carrier.type.Types type ∧ WellFormedBindings bs
  | .mk name type (some e) :: bs =>
    Carrier.id.Types name ∧ Carrier.type.Types type ∧ e.WellFormed ∧ WellFormedBindings bs

def WellFormedBranches : List Branch → Prop
  | [] => True
  | .mk name type e :: bs =>
    Carrier.id.Types name ∧ Carrier.type.Types type ∧ e.WellFormed ∧ WellFormedBranches bs

end

end Expr

def Param.WellFormed (p : Param) : Prop := Carrier.id.Types p.name ∧ Carrier.type.Types p.type

def Feature.WellFormed : Feature → Prop
  | .attribute name type value =>
    Carrier.id.Types name ∧ Carrier.type.Types type ∧ ∀ e ∈ value, e.WellFormed
  | .method name params type body =>
    Carrier.id.Types name ∧ (∀ p ∈ params, p.WellFormed) ∧ Carrier.type.Types type ∧ body.WellFormed

def ClassDecl.WellFormed (c : ClassDecl) : Prop :=
  Carrier.type.Types c.name ∧ (∀ t ∈ c.parent, Carrier.type.Types t) ∧ ∀ f ∈ c.features,
    f.WellFormed

/-- There are classes, and all that they hold is well-formed. -/
def Program.WellFormed (p : Program) : Prop := p.classes ≠ [] ∧ ∀ c ∈ p.classes, c.WellFormed

/-! ### Trees with a meaning -/

/-- A tree of the grammar for what a sign stands for. -/
structure Means (s : Sign) (x : s.Meaning) (t : SyntaxTree FragmentRule) : Prop where
  fits : t.Fits grammar
  symbol_eq : t.symbol = s.symbol
  fragment_eq : fragmentOf t = .ok (s.fragment x)

/-- Trees for what the signs of a right side stand for. -/
inductive MeansAll : (ss : List Sign) → Meanings ss → List (SyntaxTree FragmentRule) → Prop
  | nil : MeansAll [] () []
  | cons {s x t ss xs ts} : Means s x t → MeansAll ss xs ts → MeansAll (s :: ss) (x, xs) (t :: ts)

theorem MeansAll.fits (h : MeansAll ss xs ts) : ∀ t ∈ ts, t.Fits grammar := by
  induction h with
  | nil => exact nofun
  | cons ht _ ih => exact List.forall_mem_cons.mpr ⟨ht.fits, ih⟩

theorem MeansAll.map_symbol (h : MeansAll ss xs ts) :
    ts.map SyntaxTree.symbol = ss.map Sign.symbol := by
  induction h with
  | nil => rfl
  | cons ht _ ih => rw [List.map_cons, List.map_cons, ht.symbol_eq, ih]

theorem MeansAll.mapM_fragmentOf (h : MeansAll ss xs ts) :
    ts.mapM fragmentOf = .ok (fragments ss xs) := by
  induction h with
  | nil => rfl
  | cons ht _ ih =>
    rw [List.mapM_cons, ht.fragment_eq, ih]
    rfl

theorem Means.mark (hu : u.type = symbol m.name) : Means (.mark m) u (.leaf u) := by
  have htype : u.type = (Sign.mark m).symbol := hu.trans (symbol_name (.mark m))
  refine ⟨.leaf ?_, htype, rfl⟩
  rw [htype, grammar_terminals]
  exact List.mem_map_of_mem (Sign.mem_terminals rfl)

theorem Means.carrier (hu : c.Types u) : Means (.carrier c) u (.leaf u) := by
  have htype : u.type = (Sign.carrier c).symbol := hu.trans (symbol_name (.carrier c))
  refine ⟨.leaf ?_, htype, rfl⟩
  rw [htype, grammar_terminals]
  exact List.mem_map_of_mem (Sign.mem_terminals rfl)

theorem Clause.means (c : Clause n ss) (h : MeansAll ss xs ts) :
    ∃ p, Means (.nt n) (c.build xs) (.node p ts) := by
  obtain ⟨p, hp, hc⟩ := exists_produces c
  have hnames : ts.map (·.symbol.name) = (ss.map Sign.symbol).map (·.name) := by
    rw [← h.map_symbol, List.map_map]; rfl
  exact ⟨p, .node (hc.rewrites hp) hnames h.fits, hc.head, hc.fragmentOf_node h.mapM_fragmentOf⟩

/-! ### Reading -/

/-- Whatever is written for the pieces has a tree for what the nonterminal stands for. -/
def Reads (n : Nonterminal) (x : n.Meaning) (ps : List Piece) : Prop :=
  ∀ toks, Written ps toks → ∃ t, Means (.nt n) x t ∧ t.leaves = toks

/-- The pieces of a right side, where every token that is written for a mark gives meanings with a
property. -/
inductive ReadsAll : (ss : List Sign) → (Meanings ss → Prop) → List Piece → Prop
  | nil {P} : P () → ReadsAll [] P []
  | mark {m ss P ps} : (∀ t, ReadsAll ss (fun xs => P (t, xs)) ps) →
      ReadsAll (.mark m :: ss) P (.mark m :: ps)
  | carrier {c t ss P ps} : Carrier.Types c t → ReadsAll ss (fun xs => P (t, xs)) ps →
    ReadsAll (.carrier c :: ss) P (.token t :: ps)
  | nt {n x qs ss P ps} : Reads n x qs → ReadsAll ss (fun xs => P (x, xs)) ps →
      ReadsAll (.nt n :: ss) P (qs ++ ps)

theorem ReadsAll.last (h : Reads n x ps) (hP : P (x, ())) : ReadsAll [.nt n] P ps := by
  have hall := ReadsAll.nt (P := P) h (.nil hP)
  rwa [List.append_nil] at hall

theorem ReadsAll.means (h : ReadsAll ss P ps) (htoks : Written ps toks) :
    ∃ xs ts, P xs ∧ MeansAll ss xs ts ∧ ts.flatMap SyntaxTree.leaves = toks := by
  induction h generalizing toks with
  | nil hP =>
    cases htoks
    exact ⟨(), [], hP, .nil, rfl⟩
  | mark _ ih =>
    obtain ⟨u, us, hu, hus, rfl⟩ := List.forall₂_cons_left_iff.mp htoks
    obtain ⟨xs, ts, hP, hts, rfl⟩ := ih u hus
    exact ⟨(u, xs), .leaf u :: ts, hP, .cons (.mark hu) hts, by simp⟩
  | @carrier c t ss P ps ht _ ih =>
    obtain ⟨u, us, hu, hus, rfl⟩ := List.forall₂_cons_left_iff.mp htoks
    obtain rfl : u = t := hu
    obtain ⟨xs, ts, hP, hts, rfl⟩ := ih hus
    exact ⟨(u, xs), .leaf u :: ts, hP, .cons (.carrier ht) hts, by simp⟩
  | @nt n x qs ss P ps hx _ ih =>
    obtain ⟨us, vs, rfl, hus, hvs⟩ := htoks.append
    obtain ⟨t, ht, rfl⟩ := hx us hus
    obtain ⟨xs, ts, hP, hts, rfl⟩ := ih hvs
    exact ⟨(x, xs), t :: ts, hP, .cons ht hts, by simp⟩

theorem Clause.reads (c : Clause n ss) (h : ReadsAll ss (fun xs => c.build xs = x) ps) :
    Reads n x ps := by
  intro toks htoks
  obtain ⟨xs, ts, rfl, hts, rfl⟩ := h.means htoks
  obtain ⟨p, hp⟩ := c.means hts
  exact ⟨_, hp, SyntaxTree.leaves_node⟩

theorem Level.rank_injective : Function.Injective Level.rank := by
  intro l l' h
  cases l <;> cases l' <;> first | rfl | cases h

theorem Level.rank_next {l : Level} (h : l ≠ .atom) : l.next.rank = l.rank + 1 := by
  cases l <;> first | rfl | exact absurd rfl h

theorem Reads.loosen (h : Reads (.level l) e ps) (hl : l'.rank ≤ l.rank) :
    Reads (.level l') e ps := by
  induction l' using Level.induction_next with
  | atom =>
    obtain rfl : l = .atom := Level.rank_injective (by cases l <;> simp_all [Level.rank])
    exact h
  | loosen l' hne ih =>
    rcases Nat.eq_or_lt_of_le hl with heq | hlt
    · rwa [Level.rank_injective heq]
    · exact (Clause.loosen l' hne).reads (.last (ih (Level.rank_next hne ▸ hlt)) rfl)

theorem Reads.expr (h : Reads (.level l) e ps) : Reads (.level .expr) e ps :=
  h.loosen (Nat.zero_le _)

theorem Reads.enclose (h : Reads (.level l) e ps) (slot : Level) :
    Reads (.level slot) e (enclose slot l ps) := by
  rw [Cool.enclose]
  split
  · have hatom : Reads (.level .atom) e (.mark .openParen :: (ps ++ [.mark .closeParen])) :=
      Clause.paren.reads (.mark fun _ => .nt h.expr (.mark fun _ => .nil rfl))
    exact hatom.loosen (by cases slot <;> decide)
  · exact h.loosen (by omega)

namespace Expr

theorem reads_dispatch (hname : Carrier.id.Types name) (htype : ∀ t ∈ type, Carrier.type.Types t)
    (hargs : ∀ e es, args = e :: es → Reads .argList (e, es) (piecesOfArgs args)) :
    Reads .funcCall (name, args, type) (piecesOfType type ++
      .mark .dot :: .token name :: .mark .openParen ::
        (piecesOfArgs args ++ [.mark .closeParen])) := by
  cases args with
  | nil =>
    cases type with
    | none =>
      exact Clause.dispatchNoArgs.reads
        (.mark fun _ => .carrier hname (.mark fun _ => .mark fun _ => .nil rfl))
    | some t =>
      exact Clause.dispatchAtNoArgs.reads
        (.mark fun _ => .carrier (htype t rfl) (.mark fun _ => .carrier hname
        (.mark fun _ => .mark fun _ => .nil rfl)))
  | cons e es =>
    have hes := hargs e es rfl
    cases type with
    | none =>
      exact Clause.dispatch.reads (.mark fun _ =>
        .carrier hname (.mark fun _ => .nt hes (.mark fun _ => .nil rfl)))
    | some t =>
      exact Clause.dispatchAt.reads (.mark fun _ => .carrier (htype t rfl)
        (.mark fun _ => .carrier hname
        (.mark fun _ => .nt hes (.mark fun _ => .nil rfl))))

mutual

theorem reads : (e : Expr) → e.WellFormed → Reads (.level e.level) e e.pieces
  | .ifThenElse c t e, h =>
    Clause.ifThenElse.reads (.mark fun _ => .nt (reads c h.1).expr
      (.mark fun _ => .nt (reads t h.2.1).expr
      (.mark fun _ => .nt (reads e h.2.2).expr (.mark fun _ => .nil rfl))))
  | .whileLoop c b, h =>
    Clause.whileLoop.reads (.mark fun _ => .nt (reads c h.1).expr
      (.mark fun _ => .nt (reads b h.2).expr
      (.mark fun _ => .nil rfl)))
  | .block [], h => absurd rfl h.1
  | .block (e :: es), h =>
    Clause.block.reads (.mark fun _ => .nt (reads_block (e :: es) h.2 e es rfl)
      (.mark fun _ => .nil rfl))
  | .letIn [] _, h => absurd rfl h.1.1
  | .letIn (b :: bs) e, h =>
    Clause.letIn.reads (.mark fun _ => .nt (reads_bindings (b :: bs) h.1.2 b bs rfl) (.mark fun _ =>
      .last (reads e h.2).expr rfl))
  | .caseOf _ [], h => absurd rfl h.2.1
  | .caseOf e (b :: bs), h =>
    Clause.caseOf.reads (.mark fun _ => .nt (reads e h.1).expr (.mark fun _ =>
      .nt (reads_branches (b :: bs) h.2.2 b bs rfl) (.mark fun _ => .nil rfl)))
  | .assign _ e, h =>
    Clause.assign.reads (.carrier h.1 (.mark fun _ => .last (reads e h.2).expr rfl))
  | .unary op e, h =>
    (Clause.unary op).reads (.mark fun _ => .last ((reads e h).enclose op.slot) rfl)
  | .binary op l r, h =>
    (Clause.binary op).reads (.nt ((reads l h.1).enclose op.level) (.mark fun _ =>
      .last ((reads r h.2).enclose op.level.next) rfl))
  | .call e _ args _, h =>
    Clause.call.reads (.nt ((reads e h.1).enclose .atom)
      (.last (reads_dispatch h.2.1 h.2.2.2 (reads_args args h.2.2.1)) rfl))
  | .selfCall _ [], h =>
    Clause.member.reads
      (.last (Clause.selfCallNoArgs.reads (.carrier h.1 (.mark fun _ => .mark fun _ => .nil rfl)))
      rfl)
  | .selfCall _ (a :: as), h =>
    Clause.member.reads (.last (Clause.selfCall.reads (.carrier h.1 (.mark fun _ =>
      .nt (reads_args (a :: as) h.2 a as rfl) (.mark fun _ => .nil rfl)))) rfl)
  | .new _, h => Clause.new.reads (.mark fun _ => .carrier h (.nil rfl))
  | .atom kind _, h => (Clause.literal kind).reads (.carrier h (.nil rfl))
termination_by structural e => e

theorem reads_block : (l : List Expr) → WellFormedAll l → ∀ e es, l = e :: es →
    Reads .exprList (e, es) (piecesOfBlock l)
  | [], _, _, _, hl => nomatch hl
  | [e], h, _, _, rfl => Clause.exprLast.reads (.nt (reads e h.1).expr (.mark fun _ => .nil rfl))
  | e :: f :: es, h, _, _, rfl =>
    Clause.exprCons.reads (.nt (reads e h.1).expr
      (.mark fun _ => .last (reads_block (f :: es) h.2 f es rfl) rfl))
termination_by structural l => l

theorem reads_args : (l : List Expr) → WellFormedAll l → ∀ e es, l = e :: es → Reads .argList
      (e, es) (piecesOfArgs l)
  | [], _, _, _, hl => nomatch hl
  | [e], h, _, _, rfl => Clause.argLast.reads (.last (reads e h.1).expr rfl)
  | e :: f :: es, h, _, _, rfl =>
    Clause.argCons.reads (.nt (reads e h.1).expr
      (.mark fun _ => .last (reads_args (f :: es) h.2 f es rfl) rfl))
termination_by structural l => l

theorem reads_bindings : (l : List Binding) → WellFormedBindings l → ∀ b bs, l = b :: bs →
    Reads .letList (b, bs) (piecesOfBindings l)
  | [], _, _, _, hl => nomatch hl
  | [.mk _ _ none], h, _, _, rfl =>
    Clause.letLast.reads (.carrier h.1 (.mark fun _ => .carrier h.2.1 (.nil rfl)))
  | [.mk _ _ (some e)], h, _, _, rfl =>
    Clause.letLastInit.reads (.carrier h.1 (.mark fun _ => .carrier h.2.1 (.mark fun _ =>
      .last (reads e h.2.2.1).expr rfl)))
  | .mk _ _ none :: b :: bs, h, _, _, rfl =>
    Clause.letCons.reads (.carrier h.1 (.mark fun _ => .carrier h.2.1 (.mark fun _ =>
      .last (reads_bindings (b :: bs) h.2.2 b bs rfl) rfl)))
  | .mk _ _ (some e) :: b :: bs, h, _, _, rfl =>
    Clause.letConsInit.reads (.carrier h.1
      (.mark fun _ => .carrier h.2.1 (.mark fun _ => .nt (reads e h.2.2.1).expr
      (.mark fun _ => .last (reads_bindings (b :: bs) h.2.2.2 b bs rfl) rfl))))
termination_by structural l => l

theorem reads_branches : (l : List Branch) → WellFormedBranches l → ∀ b bs, l = b :: bs →
    Reads .caseList (b, bs) (piecesOfBranches l)
  | [], _, _, _, hl => nomatch hl
  | [.mk _ _ e], h, _, _, rfl =>
    Clause.caseLast.reads (.carrier h.1
      (.mark fun _ => .carrier h.2.1 (.mark fun _ => .nt (reads e h.2.2.1).expr
      (.mark fun _ => .nil rfl))))
  | .mk _ _ e :: b :: bs, h, _, _, rfl =>
    Clause.caseCons.reads (.carrier h.1
      (.mark fun _ => .carrier h.2.1 (.mark fun _ => .nt (reads e h.2.2.1).expr
      (.mark fun _ => .last (reads_branches (b :: bs) h.2.2.2 b bs rfl) rfl))))
termination_by structural l => l

end

end Expr

/-! ### Programs -/

theorem Param.reads (h : p.WellFormed) :
    Reads .param p [.token p.name, .mark .colon, .token p.type] :=
  Clause.param.reads (.carrier h.1 (.mark fun _ => .carrier h.2 (.nil rfl)))

theorem reads_params (h : ∀ q ∈ p :: ps, q.WellFormed) :
    Reads .paramList (p, ps) (piecesOfParams (p :: ps)) := by
  have hp := Param.reads (h p (.head _))
  induction ps generalizing p with
  | nil => exact Clause.paramLast.reads (.last hp rfl)
  | cons q ps ih =>
    have hq := Param.reads (h q (by simp))
    have hrest := ih (fun r hr => h r (.tail p hr)) hq
    exact Clause.paramCons.reads (.nt hp (.mark fun _ => .last hrest rfl))

theorem Feature.reads (h : f.WellFormed) : Reads .feature f f.pieces := by
  rcases f with ⟨name, type, value⟩ | ⟨name, params, type, body⟩
  · obtain ⟨hname, htype, hvalue⟩ := h
    cases value with
    | none =>
      exact Clause.attribute.reads (.carrier hname
        (.mark fun _ => .carrier htype (.mark fun _ => .nil rfl)))
    | some e =>
      have he := (e.reads (hvalue e rfl)).expr
      exact Clause.attributeInit.reads
        (.carrier hname (.mark fun _ => .carrier htype (.mark fun _ => .nt he
        (.mark fun _ => .nil rfl))))
  · obtain ⟨hname, hparams, htype, hbody⟩ := h
    have hbody := (body.reads hbody).expr
    cases params with
    | nil =>
      exact Clause.methodNoParams.reads
        (.carrier hname (.mark fun _ => .mark fun _ => .mark fun _ => .carrier htype
        (.mark fun _ => .nt hbody (.mark fun _ => .mark fun _ => .nil rfl))))
    | cons p ps =>
      exact Clause.method.reads (.carrier hname
        (.mark fun _ => .nt (reads_params hparams) (.mark fun _ => .mark fun _ =>
        .carrier htype (.mark fun _ => .nt hbody (.mark fun _ => .mark fun _ => .nil rfl)))))

theorem reads_features {fs : List Feature} (h : ∀ f ∈ fs, f.WellFormed) :
    Reads .featureList fs (fs.flatMap Feature.pieces) := by
  induction fs with
  | nil => exact Clause.featureNil.reads (.nil rfl)
  | cons f fs ih =>
    obtain ⟨hf, hfs⟩ := List.forall_mem_cons.mp h
    exact Clause.featureCons.reads (.nt (Feature.reads hf) (.last (ih hfs) rfl))

theorem ClassDecl.reads {c : ClassDecl} (h : c.WellFormed) : Reads .defClass c c.pieces := by
  obtain ⟨name, parent, features⟩ := c
  obtain ⟨hname, hparent, hfeatures⟩ := h
  have hfeatures := reads_features hfeatures
  cases parent with
  | none =>
    exact Clause.classPlain.reads (.mark fun _ => .carrier hname (.mark fun _ => .nt hfeatures
      (.mark fun _ => .mark fun _ => .nil rfl)))
  | some parent =>
    exact Clause.classInherits.reads (.mark fun _ =>
      .carrier hname (.mark fun _ => .carrier (hparent parent rfl)
      (.mark fun _ => .nt hfeatures (.mark fun _ => .mark fun _ => .nil rfl))))

theorem reads_classes (h : ∀ d ∈ c :: cs, d.WellFormed) :
    Reads .classList (c, cs) ((c :: cs).flatMap ClassDecl.pieces) := by
  induction cs generalizing c with
  | nil => exact Clause.classLast.reads (.nt (ClassDecl.reads (h c (.head _))) (.nil rfl))
  | cons d cs ih =>
    obtain ⟨hc, hcs⟩ := List.forall_mem_cons.mp h
    exact Clause.classCons.reads (.nt (ClassDecl.reads hc) (.last (ih hcs) rfl))

theorem Program.reads (h : p.WellFormed) : Reads .program p p.pieces := by
  obtain ⟨classes⟩ := p
  cases classes with
  | nil => exact absurd rfl h.1
  | cons c cs => exact Clause.program.reads (.last (reads_classes h.2) rfl)

/-- The tokens that are written for a program are accepted, and evaluating them gives its
fragment. -/
theorem accepted_of_printed (hp : p.WellFormed) (htoks : Written p.pieces toks)
    (heof : eof.type = grammar.endMark)
    (rest : List Token) :
    ∃ output operations, parser.parse (toks ++ eof :: rest) = .accepted output operations ∧
      evaluate output operations (toks ++ eof :: rest) = .ok (some (Fragment.ofProgram p)) := by
  obtain ⟨t, ht, rfl⟩ := Program.reads hp toks htoks
  obtain ⟨output, operations, hparse, heval⟩ := parse_leaves ht.fits ht.symbol_eq heof rest
  refine ⟨output, operations, hparse, ?_⟩
  rw [heval, ht.fragment_eq]
  rfl

/-- A program that is printed, with parentheses only around operands that are looser than their
place asks for, is accepted and built again, with the line and the column of every node. -/
theorem parse_of_printed {p : Program} (hp : p.WellFormed) {toks : List Token}
    (htoks : Written p.pieces toks)
    {eof : Token} (heof : eof.type = grammar.endMark) (rest : List Token) :
    ∃ output operations, parser.parse (toks ++ eof :: rest) = .accepted output operations ∧
      evaluate output operations (toks ++ eof :: rest) = .ok (some (Fragment.ofProgram p)) ∧
      parse (toks ++ eof :: rest) = .program p := by
  obtain ⟨output, operations, hparse, heval⟩ := accepted_of_printed hp htoks heof rest
  exact ⟨output, operations, hparse, heval, parse_of_accepted hparse heval⟩

/-- The plainest token for a piece. -/
def Piece.write : Piece → Token
  | .mark m => { type := (Sign.mark m).symbol, lexeme := .text m.name }
  | .token t => t

theorem written_write (ps : List Piece) : Written ps (ps.map Piece.write) := by
  induction ps with
  | nil => exact .nil
  | cons p ps ih =>
    refine .cons ?_ ih
    cases p with
    | mark m => exact (symbol_name (.mark m)).symm
    | token t => rfl

namespace Sample

def token (c : Carrier) (text : String) (line column : Nat) : Token :=
  { type := (Sign.carrier c).symbol, lexeme := .text text, line, column }

theorem types_token (c : Carrier) (text : String) (line column : Nat) :
    c.Types (token c text line column) :=
  (symbol_name (.carrier c)).symm

/-- An assignment and a sum at places that ask for tighter expressions. -/
def nested : Program where
  classes := [{
    name := token .type "A" 1 7
    parent := some (token .type "B" 1 18)
    features := [.method (token .id "f" 2 3) [⟨token .id "x" 2 5, token .type "Int" 2 9⟩]
      (token .type "Int" 2 16)
      (.binary .star (.unary .complement
        (.assign (token .id "x" 3 5) (.atom .integer (token .integer "1" 3 10))))
        (.binary .plus (.atom .integer (token .integer "2" 3 16))
          (.call (.atom .name (token .id "x" 3 20)) (token .id "f" 3 24)
            [.atom .name (token .id "x" 3 26), .atom .integer (token .integer "3" 3 29)]
              (some (token .type "A" 3 22)))))] }]

theorem nested_wellFormed : nested.WellFormed := by
  simp [nested, Program.WellFormed, ClassDecl.WellFormed, Feature.WellFormed, Param.WellFormed,
    Expr.WellFormed,
    Expr.WellFormedAll, AtomKind.carrier, types_token]

end Sample

theorem parse_of_printed_nested :
    (Sample.nested.pieces.map Piece.write).map Token.text =
      ["class", "A", "inherits", "B", "\x7b", "f", "(", "x", ":", "Int", ")", ":", "Int", "\x7b",
        "~", "(", "x", "<-", "1", ")",
        "*", "(", "2", "+", "x", "@", "A", ".", "f", "(", "x", ",", "3", ")", ")", "\x7d", ";",
          "\x7d", ";"] ∧
    parse (Sample.nested.pieces.map Piece.write ++ [.ofEndMark (.endMark 0)]) =
      .program Sample.nested := by
  have heof : (Token.ofEndMark (.endMark 0)).type = grammar.endMark := grammar_endMark.symm
  obtain ⟨_, _, -, -, hparse⟩ := parse_of_printed Sample.nested_wellFormed (written_write _) heof []
  exact ⟨rfl, hparse⟩

end AutoCool.Cool
