import FrontEnd.Grammar.Basic

/-!
# Items

An item is a production with a dot in its right-hand side: what has been read of it, and what is
still to come.  The grammar is augmented by one production, `$accept -> start`, whose completed
item accepts the input.

## Main Definitions

* `Item` — a production and the place of the dot
* `Grammar.rhsOf`, `Grammar.nextSymbol?` — the right-hand side, and the symbol behind the dot
* `Grammar.closure` — the items that may begin where others go on
* `ItemTable`, `Grammar.closureWithLookaheads` — the same with the terminals that may follow
-/

namespace FrontEnd

/-- A production with a dot in its right-hand side. -/
structure Item where
  production : Nat
  dot : Nat
deriving DecidableEq

namespace Item

/-- The order of items: by production, then by the place of the dot. -/
def before (i j : Item) : Bool :=
  i.production < j.production || (i.production == j.production && i.dot < j.dot)

/-- The item behind the next symbol. -/
def advance (i : Item) : Item := ⟨i.production, i.dot + 1⟩

/-- The item at the start of a production. -/
def start (production : Nat) : Item := ⟨production, 0⟩

/-- The production and the place of the dot, with a period between them. -/
def display (i : Item) : String := toString i.production ++ "." ++ toString i.dot

end Item

namespace Grammar

/-- The number of the augmented production. -/
def acceptProduction (g : Grammar) : Nat := g.productions.size

/-- The right-hand side of a production, the augmented one included. -/
def rhsOf (g : Grammar) (production : Nat) : List Symbol :=
  match g.productions[production]? with
  | some p => p.rhs
  | none => [.nonterminal g.start]

/-- The symbol behind the dot. -/
def nextSymbol? (g : Grammar) (i : Item) : Option Symbol := (g.rhsOf i.production)[i.dot]?

/-- The symbols behind the next one. -/
def tail (g : Grammar) (i : Item) : List Symbol := (g.rhsOf i.production).drop (i.dot + 1)

/-- Whether the dot stands at the end. -/
def isComplete (g : Grammar) (i : Item) : Bool := (g.nextSymbol? i).isNone

/-- The items that begin where an item goes on. -/
def successors (g : Grammar) (i : Item) : List Item :=
  match g.nextSymbol? i with
  | some (.nonterminal v) => (g.productionsOf v).map Item.start
  | _ => []

/-- The items that may begin where the given ones go on, these included. -/
def closure (g : Grammar) (kernel : List Item) : List Item :=
  Worklist.reach g.successors (kernel.length + g.productions.size) kernel

end Grammar

/-- Items with the terminals that may follow them. -/
abbrev ItemTable := List (Item × TokenSet)

namespace ItemTable

/-- Replaces the terminals of an item, or enters it. -/
def put : ItemTable → Item → TokenSet → ItemTable
  | [], i, s => [(i, s)]
  | (j, t) :: rest, i, s => if j = i then (j, s) :: rest else (j, t) :: put rest i s

end ItemTable

namespace Grammar

/-- The terminals that may follow the items that begin where an item goes on: those that the rest
of the item begins with and, when the rest can be empty, those that follow the item. -/
def followOfTail (g : Grammar) (i : Item) (follow : TokenSet) : TokenSet :=
  let info := g.firstOf (g.tail i)
  if info.nullable then TokenSet.union follow info.first else info.first

/-- The items that begin where an item goes on, with the terminals that may follow them. -/
def successorsWith (g : Grammar) (i : Item) (follow : TokenSet) : ItemTable :=
  let lookaheads := g.followOfTail i follow
  (g.successors i).map fun j => (j, lookaheads)

/-- Adds terminals to an item of a table, unless they are all there.  An item that is there has
passed on what its rest begins with, so only the new terminals are passed on, and only when the
rest can be empty. -/
def absorbItem (g : Grammar) (table : ItemTable) (entry : Item × TokenSet) :
    Option (ItemTable × ItemTable) :=
  let (i, lookaheads) := entry
  match table.lookup i with
  | none => some (table.put i lookaheads, g.successorsWith i lookaheads)
  | some old =>
    let added := lookaheads.filter fun t => !old.contains t
    if added.isEmpty then none
    else
      some (table.put i (TokenSet.union old added),
        if (g.firstOf (g.tail i)).nullable then g.successorsWith i added else [])

/-- Number of additions that are enough for a closure: each one enters an item, or a terminal of a
right-hand side or of the kernel. -/
def closureBound (g : Grammar) (kernel : ItemTable) : Nat :=
  (kernel.length + g.productions.size) *
    (totalLength g.productions.toList + (kernel.flatMap Prod.snd).length + 1)

/-- The items that may begin where the given ones go on, these included, with the terminals that
may follow them. -/
def closureWithLookaheads (g : Grammar) (kernel : ItemTable) : ItemTable :=
  Worklist.run g.absorbItem (g.closureBound kernel) kernel []

end Grammar

end FrontEnd
