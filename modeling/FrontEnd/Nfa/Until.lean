import FrontEnd.ByteSet.Groups
import FrontEnd.Nfa.Thompson

/-!
# Automata of first occurrences

A rule with an end pattern matches up to the first place where a match of the end pattern ends.
The part of the automaton for this is deterministic: it follows all the occurrences that may be
under way at once, and leaves as soon as one of them is complete.

## Main Definitions

* `UntilSearch` — the sets of states of the end pattern that have been met
* `Nfa.addUntil` — adds the part that matches up to the first occurrence

## Design Notes

An occurrence may begin anywhere, so the states of the entry belong to every set.  There are at
most `2 ^ n` sets of the `n` states of the end pattern, which bounds the search.
-/

namespace FrontEnd

/-- The state of the search for the sets that a run can reach. -/
structure UntilSearch where
  /-- The automaton under construction. -/
  nfa : Nfa
  /-- The sets that have been met, with their states in the automaton. -/
  known : List (StateSet × Nat)
  /-- The sets whose edges are still missing, the latest one first. -/
  waiting : List (StateSet × Nat)

namespace UntilSearch

/-- Merges a set of bytes into the edge to a set of states; the edges are kept in the order of
their targets. -/
def addTarget (target : StateSet) (bytes : ByteSet) :
    List (StateSet × ByteSet) → List (StateSet × ByteSet)
  | [] => [(target, bytes)]
  | (t, b) :: rest =>
    if t = target then (t, b.union bytes) :: rest
    else if target.before t then (target, bytes) :: (t, b) :: rest
    else (t, b) :: addTarget target bytes rest

/-- The sets that follow a set, each with the bytes that lead to it.  The groups of bytes are
given with one byte of each. -/
def edges (sub : Nfa) (entry : StateSet) (groups : List (ByteSet × UInt8)) (s : StateSet) :
    List (StateSet × ByteSet) :=
  groups.foldl (fun found (bytes, b) => addTarget ((sub.step s b).union entry) bytes found) []

/-- Adds an edge of the automaton, with a new state for a set that has not been met. -/
def addEdge (source : Nat) (search : UntilSearch) (edge : StateSet × ByteSet) : UntilSearch :=
  match search.known.lookup edge.1 with
  | some target => { search with nfa := search.nfa.addMove source edge.2 target }
  | none =>
    let (nfa, target) := search.nfa.addState
    { nfa := nfa.addMove source edge.2 target
      known := (edge.1, target) :: search.known
      waiting := (edge.1, target) :: search.waiting }

/-- Takes the latest waiting set: it leaves for `exit` when an occurrence is complete, otherwise
its edges are added. -/
def run (sub : Nfa) (entry : StateSet) (complete : Nat) (groups : List (ByteSet × UInt8))
    (exit : Nat) : Nat → UntilSearch → Nfa
  | 0, search => search.nfa
  | bound + 1, search =>
    match search.waiting with
    | [] => search.nfa
    | (s, i) :: waiting =>
      let search := { search with waiting := waiting }
      if s.mem complete then
        run sub entry complete groups exit bound { search with nfa := search.nfa.addSilent i exit }
      else
        run sub entry complete groups exit bound
          ((edges sub entry groups s).foldl (addEdge i) search)

end UntilSearch

namespace Nfa

/-- Adds a part that matches up to the first place where a match of the expression ends. -/
def addUntil (nfa : Nfa) (node : Node) : Nfa × Fragment :=
  let (sub, f) := addNode node Nfa.empty
  let entry := sub.closure [f.start]
  let groups := ByteGroups.ofSets sub.moveSets
  let groups := groups.sets.zip groups.representatives
  let (nfa, start) := nfa.addState
  let (nfa, exit) := nfa.addState
  let search : UntilSearch := ⟨nfa, [(entry, start)], [(entry, start)]⟩
  (UntilSearch.run sub entry f.stop groups exit (1 <<< sub.size) search, ⟨start, exit⟩)

end Nfa

end FrontEnd
