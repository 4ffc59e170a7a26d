import AutoCool.LR1.Rules

/-!
# Items and their closure

An item is a production with a place in its right side and a set of lookaheads. A state of the
automaton is a list of items in ascending order, one for each production and place, so that equal
sets are equal lists.

The closure of some items adds the productions of every nonterminal that is expected. Their
lookaheads depend on the nonterminal only, so the closure is found as a table from nonterminals to
lookaheads: it starts with what the given items ask for and is spread along the productions that
begin with a nonterminal, round by round, until nothing changes.
-/

namespace AutoCool.LR1

structure Item where
  rule : Nat
  dot : Nat
  ahead : BitSet
deriving DecidableEq, Repr, Inhabited

namespace Item

def advance (x : Item) : Item := { x with dot := x.dot + 1 }

/-- Puts an item in its place among items in ascending order. An item for the same production and
place gets the lookaheads of both. -/
def insert (x : Item) : List Item → List Item
  | [] => [x]
  | y :: ys =>
    if x.rule < y.rule || x.rule == y.rule && x.dot < y.dot then x :: y :: ys
    else if x.rule == y.rule && x.dot == y.dot then { y with ahead := x.ahead.union y.ahead } :: ys
    else y :: insert x ys

def sort (items : List Item) : List Item := items.foldr insert []

end Item

/-- The lookaheads of the nonterminals that are expected, by the number of the nonterminal. -/
abbrev Reach := Array (Option BitSet)

namespace Reach

def get? (r : Reach) (symbol : Nat) : Option BitSet := (r[symbol]?).join

def join (r : Reach) (symbol : Nat) (ahead : BitSet) : Reach :=
  r.modify symbol fun
    | none => some ahead
    | some old => some (old.union ahead)

/-- Expects what is asked for at a place of an item with given lookaheads. Each lookahead is put
after what follows the place, so an item without lookaheads passes none on. -/
def spread (r : Reach) (s : Spread) (ahead : BitSet) : Reach :=
  r.join s.target
    (if ahead.isEmpty then BitSet.empty else if s.passes then s.begins.union ahead else s.begins)

end Reach

variable {ρ : Type}

def edgesOf (rules : Array (Rule ρ)) : List (Nat × Spread) :=
  rules.toList.filterMap fun r => (r.spread? 0).map (r.production.head.id, ·)

/-- Expects what the given items ask for. `size` is above the number of every symbol. -/
def seed (rules : Array (Rule ρ)) (size : Nat) (items : List Item) : Reach :=
  items.foldl (fun r x =>
    match (rules[x.rule]?).bind (·.spread? x.dot) with
    | some s => r.spread s x.ahead
    | none => r) (Array.replicate size none)

def spreadOnce (edges : List (Nat × Spread)) (r : Reach) : Reach :=
  edges.foldl (fun r' (head, s) =>
    match r.get? head with
    | some ahead => r'.spread s ahead
    | none => r') r

def saturate (edges : List (Nat × Spread)) : (fuel : Nat) → Reach → Reach
  | 0, r => r
  | fuel + 1, r =>
    let r' := spreadOnce edges r
    if r' == r then r else saturate edges fuel r'

def beginnings (rules : Array (Rule ρ)) (r : Reach) : List Item :=
  rules.toList.zipIdx.filterMap fun (rule, i) =>
    (r.get? rule.production.head.id).map fun ahead => { rule := i, dot := 0, ahead }

/-- The closure of some items. Each of the `size` symbols can get each lookahead once, and be
expected once without any, which bounds the number of changes. -/
def closure (rules : Array (Rule ρ)) (edges : List (Nat × Spread)) (size : Nat)
    (items : List Item) : List Item :=
  let reach := saturate edges (size * (size + 1) + 1) (seed rules size items)
  Item.sort (items ++ beginnings rules reach)

def faultAmong? (rules : Array (Rule ρ)) (items : List Item) : Option GrammarError :=
  items.findSome? fun x => (rules[x.rule]?).bind (·.fault? x.dot x.ahead)

/-- What is wrong with the beginnings after the first round that has such ones, at most `fuel`
rounds later. -/
def spreadFault? (rules : Array (Rule ρ)) (edges : List (Nat × Spread)) :
    (fuel : Nat) → Reach → Option GrammarError
  | 0, r => faultAmong? rules (beginnings rules r)
  | fuel + 1, r =>
    match faultAmong? rules (beginnings rules r) with
    | some e => some e
    | none =>
      let r' := spreadOnce edges r
      if r' == r then none else spreadFault? rules edges fuel r'

/-- What is wrong with the closure of some items: with the items themselves, or with what they bring
in. -/
def closureFault? (rules : Array (Rule ρ)) (edges : List (Nat × Spread)) (size : Nat)
    (items : List Item) : Option GrammarError :=
  match faultAmong? rules items with
  | some e => some e
  | none => spreadFault? rules edges (size * (size + 1) + 1) (seed rules size items)

def kernel (rules : Array (Rule ρ)) (items : List Item) (s : Symbol) : List Item :=
  (items.filter fun x => (rules[x.rule]?).bind (·.next? x.dot) == some s).map Item.advance

end AutoCool.LR1
