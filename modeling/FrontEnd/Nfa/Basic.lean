import FrontEnd.ByteSet.Basic
import FrontEnd.Nfa.StateSet
import FrontEnd.Worklist

/-!
# Nondeterministic automata

Automata over bytes with silent edges.  States are numbered in the order of their creation, and
the edges of a state keep the order in which they were added.

## Main Definitions

* `Accept` — the rule that a state accepts
* `Nfa` — an automaton
* `Nfa.addState`, `Nfa.addSilent`, `Nfa.addMove`, `Nfa.setAccept` — construction
* `Nfa.closure` — the states that silent edges reach
* `Nfa.step` — the states after one byte
* `Nfa.run` — the states after a byte string
-/

namespace FrontEnd

/-- The rule that is accepted in a state. -/
structure Accept where
  rule : Nat
  /-- The match is accepted only at the end of a line. -/
  atLineEnd : Bool
deriving DecidableEq

/-- A state of an automaton with its outgoing edges. -/
structure Nfa.State where
  /-- Targets of the silent edges. -/
  silent : List Nat
  /-- The edges that read a byte of a set. -/
  moves : List (ByteSet × Nat)
  accept : Option Accept
deriving DecidableEq

/-- A state without edges. -/
def Nfa.State.bare : Nfa.State := ⟨[], [], none⟩

/-- A nondeterministic automaton. -/
structure Nfa where
  states : Array Nfa.State
deriving DecidableEq

namespace Nfa

/-- The automaton without states. -/
def empty : Nfa := ⟨#[]⟩

/-- Number of states. -/
def size (nfa : Nfa) : Nat := nfa.states.size

/-- A state; a number that has not been given out has no edges. -/
def state (nfa : Nfa) (i : Nat) : State := nfa.states.getD i State.bare

/-- The automaton with a new state, and the number of that state. -/
def addState (nfa : Nfa) : Nfa × Nat := (⟨nfa.states.push State.bare⟩, nfa.size)

/-- The automaton with a silent edge. -/
def addSilent (nfa : Nfa) (source target : Nat) : Nfa :=
  ⟨nfa.states.modify source fun q => { q with silent := q.silent ++ [target] }⟩

/-- The automaton with an edge that reads a byte of a set. -/
def addMove (nfa : Nfa) (source : Nat) (s : ByteSet) (target : Nat) : Nfa :=
  ⟨nfa.states.modify source fun q => { q with moves := q.moves ++ [(s, target)] }⟩

/-- The automaton with a state that accepts a rule. -/
def setAccept (nfa : Nfa) (i : Nat) (accept : Accept) : Nfa :=
  ⟨nfa.states.modify i fun q => { q with accept := some accept }⟩

/-- The sets on all the edges. -/
def moveSets (nfa : Nfa) : List ByteSet :=
  nfa.states.toList.flatMap fun q => q.moves.map Prod.fst

/-- Adds a state and the states behind its silent edges to a set, unless it is there. -/
def absorb (nfa : Nfa) (seen : StateSet) (i : Nat) : Option (StateSet × List Nat) :=
  if seen.mem i then none else some (seen.insert i, (nfa.state i).silent)

/-- The states that silent edges reach from some states, these included. -/
def closure (nfa : Nfa) (states : List Nat) : StateSet :=
  Worklist.run nfa.absorb nfa.size states StateSet.empty

/-- Targets of the edges that read a byte in a state. -/
def targets (nfa : Nfa) (b : UInt8) (i : Nat) : List Nat :=
  ((nfa.state i).moves.filter fun move => move.1.contains b).map Prod.snd

/-- The states that one byte leads to from the states of a list. -/
def stepFrom (nfa : Nfa) (states : List Nat) (b : UInt8) : StateSet :=
  nfa.closure (states.flatMap (nfa.targets b))

/-- The states that one byte leads to, with those behind silent edges. -/
def step (nfa : Nfa) (states : StateSet) (b : UInt8) : StateSet := nfa.stepFrom states.toList b

/-- The states that a byte string leads to from a state. -/
def run (nfa : Nfa) (start : Nat) (bytes : List UInt8) : StateSet :=
  bytes.foldl nfa.step (nfa.closure [start])

end Nfa

end FrontEnd
