import AutoCool.Iteration
import AutoCool.LR1.Closure

/-!
# Closing item sets item by item

An item before a nonterminal brings in the productions of the nonterminal (`expand`). All that the
items of a set bring in is added to the set, again and again, until no item is new, and then the
items for one production and place are put together (`close`). The set can have many of these on the
way, with different lookaheads.
-/

namespace AutoCool.LR1

variable {ρ : Type}

/-- What comes after the next symbol of an item, once before each of its lookaheads. -/
def previews (g : Grammar ρ) (r : Rule ρ) (x : Item) : List (List Symbol) :=
  ((g.terminals ++ [g.endMark]).filter fun a => x.ahead.contains a.id).map fun a =>
    r.symbols.drop (x.dot + 1) ++ [a]

/-- The items that an item brings in. There are none to be told when a symbol has no FIRST set, or
when the empty word would be ahead of them. -/
def expand (g : Grammar ρ) (firsts : FirstTable ρ) (rules : Array (Rule ρ)) (x : Item) :
    Option (List Item) :=
  match rules[x.rule]? with
  | none => some []
  | some r =>
    match r.next? x.dot with
    | none => some []
    | some s =>
      if s.isNonterminal then do
        let sets ← (previews g r x).mapM fun w => (firsts.phrase w).toOption
        let ahead := sets.foldl MarkedSet.join {}
        guard (!ahead.epsilon)
        return (rules.toList.zipIdx.filter (·.1.production.head == s)).map fun y =>
          { rule := y.2, dot := 0, ahead := BitSet.ofList (ahead.items.map (·.id)) }
      else some []

def closeStep (g : Grammar ρ) (firsts : FirstTable ρ) (rules : Array (Rule ρ))
    (set : MarkedSet Item) : MarkedSet Item ⊕ Option (List Item) :=
  match set.items.mapM (expand g firsts rules) with
  | none => .inr none
  | some new =>
    let set' := set.absorb (MarkedSet.ofList new.flatten)
    if set.grew set' then .inl set' else .inr (some (Item.sort set'.items))

/-- The closure of some items. It has no value when the rounds go on for ever. -/
def close (g : Grammar ρ) (firsts : FirstTable ρ) (rules : Array (Rule ρ)) (items : List Item) :
    Option (Option (List Item)) :=
  Iteration.untilDone (closeStep g firsts rules) (MarkedSet.ofList items)

end AutoCool.LR1
