import FrontEnd.Nfa.Basic
import FrontEnd.Regex.Node

/-!
# Automata of regular expressions

Each expression becomes a part of an automaton with one entry and one exit.  The parts of an
expression are built one after the other and joined by silent edges.

## Main Definitions

* `Fragment` — the entry and the exit of a part
* `Nfa.addNode` — adds the part of an expression

## Design Notes

The numbers of the states are shown in answers, so the order of creation is part of the
construction.
-/

namespace FrontEnd

/-- The entry and the exit of a part of an automaton. -/
structure Fragment where
  start : Nat
  stop : Nat
deriving DecidableEq

namespace Nfa

/-- Adds a part that matches the empty string. -/
def addEmpty (nfa : Nfa) : Nfa × Fragment :=
  let (nfa, start) := nfa.addState
  let (nfa, stop) := nfa.addState
  (nfa.addSilent start stop, ⟨start, stop⟩)

/-- Adds a part that matches one byte of a set. -/
def addSet (nfa : Nfa) (s : ByteSet) : Nfa × Fragment :=
  let (nfa, start) := nfa.addState
  let (nfa, stop) := nfa.addState
  (nfa.addMove start s stop, ⟨start, stop⟩)

/-- Adds copies of a part, each behind the one before, and gives the exit of the last one. -/
def addCopies (add : Nfa → Nfa × Fragment) : Nat → Nfa → Nat → Nfa × Nat
  | 0, nfa, last => (nfa, last)
  | n + 1, nfa, last =>
    let (nfa, f) := add nfa
    addCopies add n (nfa.addSilent last f.start) f.stop

/-- Adds copies of a part, each of which can be left out together with those behind it. -/
def addOptionalCopies (add : Nfa → Nfa × Fragment) (stop : Nat) : Nat → Nfa → Nat → Nfa × Nat
  | 0, nfa, last => (nfa, last)
  | n + 1, nfa, last =>
    let (nfa, f) := add nfa
    addOptionalCopies add stop n ((nfa.addSilent last f.start).addSilent last stop) f.stop

/-- Adds a part that matches between `min` and `max` copies. -/
def addRepeated (add : Nfa → Nfa × Fragment) (min : Nat) (max : Option Nat) (nfa : Nfa) :
    Nfa × Fragment :=
  let (nfa, start) := nfa.addState
  let (nfa, last) := addCopies add min nfa start
  let (nfa, stop) := nfa.addState
  match max with
  | none =>
    let (nfa, hub) := nfa.addState
    let (nfa, f) := add nfa
    let nfa := nfa.addSilent last hub
    let nfa := nfa.addSilent hub f.start
    let nfa := nfa.addSilent f.stop hub
    (nfa.addSilent hub stop, ⟨start, stop⟩)
  | some max =>
    let (nfa, last) := addOptionalCopies add stop (max - min) nfa last
    (nfa.addSilent last stop, ⟨start, stop⟩)

mutual

/-- Adds the part of an expression. -/
def addNode : Node → Nfa → Nfa × Fragment
  | .empty, nfa => nfa.addEmpty
  | .set s, nfa => nfa.addSet s
  | .concat [], nfa => nfa.addEmpty
  | .concat (item :: items), nfa =>
    let (nfa, f) := addNode item nfa
    addBehind items f nfa
  | .alt items, nfa =>
    let (nfa, start) := nfa.addState
    let (nfa, stop) := nfa.addState
    (addChoices items ⟨start, stop⟩ nfa, ⟨start, stop⟩)
  | .repeated node min max, nfa => addRepeated (addNode node) min max nfa

/-- Adds the parts of some expressions, each behind the one before. -/
def addBehind : List Node → Fragment → Nfa → Nfa × Fragment
  | [], f, nfa => (nfa, f)
  | item :: items, f, nfa =>
    let (nfa, next) := addNode item nfa
    addBehind items ⟨f.start, next.stop⟩ (nfa.addSilent f.stop next.start)

/-- Adds the parts of some expressions, each between the ends of a common part. -/
def addChoices : List Node → Fragment → Nfa → Nfa
  | [], _, nfa => nfa
  | item :: items, around, nfa =>
    let (nfa, f) := addNode item nfa
    addChoices items around ((nfa.addSilent around.start f.start).addSilent f.stop around.stop)

end

end Nfa

end FrontEnd
