import FrontEnd.Lalr.Automaton

/-!
# Lookaheads

The terminals that may follow each kernel item.  They are the least sets that hold the end of the
input for the first item and go along with the items from state to state.

## Main Definitions

* `Lookaheads` — the kernel items of each state with the terminals that may follow them
* `Grammar.mark` — stands for whatever follows a kernel item
* `Passage` — what a kernel item hands to an item of a state behind it
* `Grammar.passages` — all passages of an automaton
* `Grammar.lookaheads` — the least sets that are closed under the passages

## Design Notes

What arrives over a passage does not depend on the lookaheads found so far: some terminals arrive
in any case, and those that follow the kernel item either arrive all or not at all.  So each
closure is taken once, with a mark in the place of the terminals that follow.  The mark is the
first number behind the terminals.  A symbol with this number has no name and can only be given by
its number; it is taken for the mark.
-/

namespace FrontEnd

/-- The kernel items of each state with the terminals that may follow them. -/
abbrev Lookaheads := Array ItemTable

namespace Lookaheads

/-- The kernel items of a state. -/
def state (l : Lookaheads) (i : Nat) : ItemTable := l.getD i []

/-- The terminals that may follow a kernel item of a state. -/
def follow (l : Lookaheads) (state : Nat) (item : Item) : TokenSet :=
  ((l.state state).lookup item).getD []

/-- No terminals follow, except that the first item may be followed by the end of the input. -/
def initial (a : ItemAutomaton) : Lookaheads :=
  (a.kernels.map fun kernel => kernel.map fun i => (i, ([] : TokenSet))).modify 0 fun table =>
    table.map fun (i, _) => (i, [TokenId.endOfInput])

/-- Adds terminals to a kernel item of a state. -/
def add (l : Lookaheads) (state : Nat) (item : Item) (extra : TokenSet) : Lookaheads :=
  l.modify state fun table =>
    table.map fun (i, s) => if i = item then (i, TokenSet.union s extra) else (i, s)

/-- Number of terminals in all sets that a grammar allows at most. -/
def bound (g : Grammar) (a : ItemAutomaton) : Nat :=
  a.kernels.toList.flatten.length * (totalLength g.productions.toList + 1)

end Lookaheads

/-- What a kernel item hands to an item of a state behind it. -/
structure Passage where
  /-- The state of the kernel item. -/
  state : Nat
  /-- The kernel item. -/
  item : Item
  /-- The state behind. -/
  target : Nat
  /-- The item of the state behind. -/
  arrival : Item
  /-- The terminals that arrive in any case. -/
  always : TokenSet
  /-- Whether the terminals that follow the kernel item arrive as well. -/
  carries : Bool
deriving DecidableEq

namespace Passage

/-- Adds the terminals that arrive in any case. -/
def generate (l : Lookaheads) (p : Passage) : Lookaheads := l.add p.target p.arrival p.always

/-- Adds the terminals that follow the kernel item, if they arrive. -/
def carry (l : Lookaheads) (p : Passage) : Lookaheads :=
  if p.carries then l.add p.target p.arrival (l.follow p.state p.item) else l

end Passage

namespace Grammar

/-- Stands for whatever follows a kernel item. -/
def mark (g : Grammar) : TokenId := Int.ofNat g.numTerminals

/-- What a kernel item hands to the items of the states behind it. -/
def passagesFrom (g : Grammar) (a : ItemAutomaton) (state : Nat) (item : Item) : List Passage :=
  (g.closureWithLookaheads [(item, [g.mark])]).filterMap fun (i, s) =>
    ((g.nextSymbol? i).bind (a.target? state)).map fun target =>
      { state := state
        item := item
        target := target
        arrival := i.advance
        always := s.filter fun t => t != g.mark
        carries := s.contains g.mark }

/-- All passages of an automaton. -/
def passages (g : Grammar) (a : ItemAutomaton) : List Passage :=
  (List.range a.size).flatMap fun state => (a.kernel state).flatMap (g.passagesFrom a state)

/-- The terminals that may follow the kernel items of each state. -/
def lookaheads (g : Grammar) (a : ItemAutomaton) : Lookaheads :=
  let passages := g.passages a
  iterateUntilStable (fun l => passages.foldl Passage.carry l) (Lookaheads.bound g a + 1)
    (passages.foldl Passage.generate (Lookaheads.initial a))

end Grammar

end FrontEnd
