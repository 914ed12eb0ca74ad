import FrontEnd.ByteSet.Groups
import FrontEnd.Nfa.Basic
import Std.Data.TreeMap

/-!
# Deterministic automata

A deterministic automaton follows all the runs of a nondeterministic one at once: its states stand
for sets of states.  It has one entry for each start state it is built for, and one column for
each group of bytes.

## Main Definitions

* `Dfa` — the tables of the automaton
* `Dfa.next`, `Dfa.isDead` — one step, and the state from which nothing can match
* `Dfa.Subsets` — the sets of states that have been met, with their numbers
* `Dfa.accepts` — the rules that a set of states accepts
* `Dfa.build` — the automaton for some start states

## Design Notes

The dead state is the first number that no set has.  It is known only when all sets have been met,
so the rows are first collected with `none` in its place.  There are at most `2 ^ n` sets of `n`
states, which bounds the construction.
-/

namespace FrontEnd

/-- The tables of a deterministic automaton. -/
structure Dfa where
  /-- Number of groups of bytes. -/
  groups : Nat
  /-- Number of states, without the dead one. -/
  size : Nat
  /-- Entry for each start state. -/
  initial : Array Nat
  /-- Target of each state and group, row by row. -/
  table : Array Nat
  /-- The rule that is accepted in each state. -/
  accept : Array (Option Nat)
  /-- The rule that is accepted in each state at the end of a line, when it comes before the one
  that is accepted anywhere. -/
  lineEndAccept : Array (Option Nat)
deriving DecidableEq

namespace Dfa

/-- The state after a byte of a group. -/
def next (dfa : Dfa) (state group : Nat) : Nat :=
  dfa.table.getD (state * dfa.groups + group) dfa.size

/-- Whether nothing can match from a state on. -/
def isDead (dfa : Dfa) (state : Nat) : Bool := dfa.size ≤ state

/-- The rules that are accepted in some state, in ascending order. -/
def acceptedRules (dfa : Dfa) : List Nat :=
  let rules := dfa.accept.toList.reduceOption ++ dfa.lineEndAccept.toList.reduceOption
  rules.mergeSort.eraseDups

/-- The sets of states that have been met. -/
structure Subsets where
  /-- The sets in the order of their numbers. -/
  found : Array StateSet
  /-- The number of each set, by its bits. -/
  numbers : Std.TreeMap Nat Nat

/-- No set has been met. -/
def Subsets.empty : Subsets := ⟨#[], ∅⟩

/-- The number of a set, which is a new one for a set that has not been met. -/
def Subsets.number (subsets : Subsets) (s : StateSet) : Subsets × Nat :=
  match subsets.numbers[s.bits]? with
  | some i => (subsets, i)
  | none =>
    let i := subsets.found.size
    (⟨subsets.found.push s, subsets.numbers.insert s.bits i⟩, i)

/-- The least rule of some accepting marks. -/
def leastRule : List Accept → Option Nat
  | [] => none
  | a :: marks =>
    match leastRule marks with
    | none => some a.rule
    | some rule => some (min a.rule rule)

/-- The rules that a set of states accepts: anywhere, and at the end of a line.  The latter is
left out when a rule before it is accepted anywhere. -/
def accepts (nfa : Nfa) (s : StateSet) : Option Nat × Option Nat :=
  let marks := s.toList.filterMap fun i => (nfa.state i).accept
  let anywhere := leastRule (marks.filter fun a => !a.atLineEnd)
  let atLineEnd := leastRule (marks.filter Accept.atLineEnd)
  match anywhere, atLineEnd with
  | some rule, some endRule => (anywhere, if rule < endRule then none else atLineEnd)
  | _, _ => (anywhere, atLineEnd)

/-- The numbers of some sets, one after the other; an empty set has none. -/
def numberAll (subsets : Subsets) : List StateSet → Subsets × List (Option Nat)
  | [] => (subsets, [])
  | s :: rest =>
    if s.isEmpty then
      let (subsets, row) := numberAll subsets rest
      (subsets, none :: row)
    else
      let (subsets, i) := subsets.number s
      let (subsets, row) := numberAll subsets rest
      (subsets, some i :: row)

/-- The rows of all sets from the one with the number `current` on. -/
def rows (nfa : Nfa) (representatives : List UInt8) :
    Nat → Nat → Subsets → Array (List (Option Nat)) → Subsets × Array (List (Option Nat))
  | 0, _, subsets, done => (subsets, done)
  | bound + 1, current, subsets, done =>
    match subsets.found[current]? with
    | none => (subsets, done)
    | some s =>
      let (subsets, row) := numberAll subsets (representatives.map (nfa.stepFrom s.toList))
      rows nfa representatives bound (current + 1) subsets (done.push row)

/-- The deterministic automaton that starts in each of the given states. -/
def build (nfa : Nfa) (groups : ByteGroups) (starts : List Nat) : Dfa :=
  let (subsets, initial) :=
    numberAll Subsets.empty (starts.map fun start => nfa.closure [start])
  let (subsets, table) := rows nfa groups.representatives (1 <<< nfa.size) 0 subsets #[]
  let size := subsets.found.size
  let accepted := subsets.found.map (accepts nfa)
  { groups := groups.count
    size := size
    initial := (initial.map fun i => i.getD size).toArray
    table := (table.toList.flatten.map fun i => i.getD size).toArray
    accept := accepted.map Prod.fst
    lineEndAccept := accepted.map Prod.snd }

end Dfa

end FrontEnd
