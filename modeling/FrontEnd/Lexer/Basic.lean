import FrontEnd.Dfa
import FrontEnd.Flags
import FrontEnd.Lexer.Terminal
import FrontEnd.Log
import FrontEnd.Names

/-!
# Lexers

The tables of a lexer and the search for the longest match.

## Main Definitions

* `Lexer` — the tables
* `Lexer.accepting` — the rule that is accepted at a place of the input
* `Lexer.scan` — follows the input as long as something can match
* `Lexer.matchAhead` — the longest match between the bytes passed and the bytes left
* `Lexer.longestMatch` — the longest match at an offset
-/

namespace FrontEnd

/-- The tables of a lexer. -/
structure Lexer where
  groups : ByteGroups
  dfa : Dfa
  /-- Entry of the automaton for each lexer state: inside a line, and at the start of a line. -/
  entries : List (Nat × Nat)
  /-- The instructions of each rule. -/
  terminals : List Terminal
  /-- Names of the lexer states. -/
  stateNames : NameList
  flags : Flags
  log : Log

/-- The line feed, which separates lines. -/
def lineFeed : UInt8 := 0x0a

/-- Whether a line ends in front of the bytes left, or starts behind the bytes passed, which are
given with the latest one first: there are none, or the nearest one is a line feed. -/
def atLineBreak : List UInt8 → Bool
  | [] => true
  | b :: _ => b == lineFeed

namespace Lexer

/-- Number of lexer states. -/
def numStates (l : Lexer) : Nat := l.stateNames.size

/-- Number of rules, the implicit one included. -/
def numRules (l : Lexer) : Nat := l.terminals.length

/-- The handle of a lexer state. -/
def stateId? (l : Lexer) (name : String) : Option Nat :=
  (l.stateNames.indexOf? name).map narrow16

/-- The name of a lexer state. -/
def stateName? (l : Lexer) (state : Nat) : Option String := l.stateNames.get? state

/-- The instructions of a rule. -/
def terminal? (l : Lexer) (rule : Nat) : Option Terminal := l.terminals[rule]?

/-- The rule that is accepted in a state of the automaton in front of the rest of an input. -/
def accepting (l : Lexer) (node : Nat) (rest : List UInt8) : Option Nat :=
  match l.dfa.lineEndAccept.getD node none with
  | some rule => if atLineBreak rest then some rule else l.dfa.accept.getD node none
  | none => l.dfa.accept.getD node none

/-- The last match when the automaton goes on from a state over the rest of an input: the rule and
the number of bytes, of which `length` have been read. -/
def scan (l : Lexer) (node length : Nat) (last : Option (Nat × Nat)) :
    List UInt8 → Option (Nat × Nat)
  | [] =>
    match l.accepting node [] with
    | some rule => some (rule, length)
    | none => last
  | b :: rest =>
    let last := match l.accepting node (b :: rest) with
      | some rule => some (rule, length)
      | none => last
    let node := l.dfa.next node (l.groups.group b)
    if l.dfa.isDead node then last else l.scan node (length + 1) last rest

/-- The longest match of the bytes ahead, in a lexer state: the rule and the number of bytes.  The
bytes behind are given with the latest one first.  Of several rules for the longest match, the first
one is given.  An unknown lexer state matches nothing. -/
def matchAhead (l : Lexer) (behind ahead : List UInt8) (state : Nat) : Option (Nat × Nat) :=
  match l.entries[state]? with
  | none => none
  | some (insideLine, lineStart) =>
    l.scan (if atLineBreak behind then lineStart else insideLine) 0 none ahead

/-- The longest match that starts at an offset of an input: the rule and the offset behind the
match. -/
def longestMatch (l : Lexer) (input : List UInt8) (start state : Nat) : Option (Nat × Nat) :=
  (l.matchAhead (input.take start).reverse (input.drop start) state).map fun (rule, length) =>
    (rule, start + length)

end Lexer

end FrontEnd
