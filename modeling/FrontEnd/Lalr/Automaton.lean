import FrontEnd.Lalr.Item

/-!
# The automaton of a grammar

Each state stands for the items that are valid after some symbols.  It is given by its kernel: the
items that have just moved over a symbol.

## Main Definitions

* `ItemAutomaton` — the kernels and the moves between them
* `Grammar.moves` — the kernels that follow a kernel, in the order of the symbols
* `Grammar.automaton` — the automaton

## Design Notes

States are numbered in the order in which they are met.  There are at most `2 ^ n` kernels of `n`
items, which bounds the construction.
-/

namespace FrontEnd

/-- The kernels of the states and the moves between the states. -/
structure ItemAutomaton where
  /-- The items of each kernel, in ascending order. -/
  kernels : Array (List Item)
  /-- The moves of each state, in the order of the symbols. -/
  moves : Array (List (Symbol × Nat))
deriving DecidableEq

namespace ItemAutomaton

/-- Number of states. -/
def size (a : ItemAutomaton) : Nat := a.kernels.size

/-- The kernel of a state. -/
def kernel (a : ItemAutomaton) (state : Nat) : List Item := a.kernels.getD state []

/-- The state behind a symbol. -/
def target? (a : ItemAutomaton) (state : Nat) (s : Symbol) : Option Nat :=
  (a.moves.getD state []).lookup s

end ItemAutomaton

/-- Enters an item into the kernel behind a symbol; kernels are kept in the order of their
symbols, and items in ascending order. -/
def addToKernel (s : Symbol) (i : Item) : List (Symbol × List Item) → List (Symbol × List Item)
  | [] => [(s, [i])]
  | (t, items) :: rest =>
    if t = s then (t, Sorted.insert Item.before i items) :: rest
    else if s.before t then (s, [i]) :: (t, items) :: rest
    else (t, items) :: addToKernel s i rest

/-- The numbers of some kernels; a kernel that has not been met gets the next number. -/
def numberKernels (kernels : Array (List Item)) :
    List (Symbol × List Item) → Array (List Item) × List (Symbol × Nat)
  | [] => (kernels, [])
  | (s, kernel) :: rest =>
    match kernels.idxOf? kernel with
    | some i =>
      let (kernels, moves) := numberKernels kernels rest
      (kernels, (s, i) :: moves)
    | none =>
      let (all, moves) := numberKernels (kernels.push kernel) rest
      (all, (s, kernels.size) :: moves)

namespace Grammar

/-- The kernels that follow a kernel, in the order of the symbols. -/
def moves (g : Grammar) (kernel : List Item) : List (Symbol × List Item) :=
  (g.closure kernel).foldl
    (fun found i =>
      match g.nextSymbol? i with
      | some s => addToKernel s i.advance found
      | none => found)
    []

/-- Adds the moves of all states from the one with the number `current` on. -/
def extendAutomaton (g : Grammar) : Nat → Nat → ItemAutomaton → ItemAutomaton
  | 0, _, a => a
  | bound + 1, current, a =>
    match a.kernels[current]? with
    | none => a
    | some kernel =>
      let (kernels, moves) := numberKernels a.kernels (g.moves kernel)
      g.extendAutomaton bound (current + 1) ⟨kernels, a.moves.push moves⟩

/-- Number of items of all productions, the augmented one included. -/
def numItems (g : Grammar) : Nat :=
  totalLength g.productions.toList + g.productions.size + 2

/-- The automaton of the grammar. -/
def automaton (g : Grammar) : ItemAutomaton :=
  g.extendAutomaton (1 <<< g.numItems) 0 ⟨#[[Item.start g.acceptProduction]], #[]⟩

end Grammar

end FrontEnd
