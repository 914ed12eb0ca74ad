import FrontEnd.Flags
import FrontEnd.Lexer.Rule
import FrontEnd.Regex.Pattern

/-!
# Lexer definitions

A lexer definition collects rules, lexer states, named patterns and options.  Patterns and states
are looked at only when the lexer is built.

## Main Definitions

* `LexerDefinition` — what has been collected
* `LexerDefinition.addRule`, `LexerDefinition.addState`, `LexerDefinition.namePattern`,
  `LexerDefinition.setFlags` — the operations
* `LexerDefinition.stateId?`, `LexerDefinition.stateName?` — handles and names of states

## Design Notes

Each operation answers its result and the definition behind it, also when it fails.
-/

namespace FrontEnd

/-- What has been collected for a lexer. -/
structure LexerDefinition where
  rules : List Rule
  /-- Names of the lexer states in the order of their handles. -/
  states : NameList
  named : NamedPatterns
  flags : Flags

/-- A name made of bytes that are allowed at its start and behind it. -/
def isName (first other : UInt8 → Bool) (name : String) : Bool :=
  match bytesOf name with
  | [] => false
  | b :: bytes => first b && bytes.all other

namespace LexerDefinition

/-- No rules, and the initial state only. -/
def empty : LexerDefinition :=
  ⟨[], NameList.empty.add initialStateName, NameTable.empty, Flags.none⟩

/-- The definition with other options. -/
def setFlags (d : LexerDefinition) (flags : Flags) : LexerDefinition := { d with flags := flags }

/-- Number of lexer states. -/
def numStates (d : LexerDefinition) : Nat := d.states.size

/-- Number of rules. -/
def numRules (d : LexerDefinition) : Nat := d.rules.length

/-- Adds a rule and gives its number. -/
def addRule (d : LexerDefinition) (rule : Rule) : Except LexerFault Nat × LexerDefinition :=
  if rule.token = TokenId.endOfInput then (.error (.reservedToken rule.token), d)
  else (.ok d.rules.length, { d with rules := d.rules ++ [rule] })

/-- The names of lexer states: letters, digits and underscores, without a digit at the start. -/
def isStateName (name : String) : Bool :=
  isName isNameStart (fun b => isNameStart b || Ascii.isDigit b) name

/-- Adds a lexer state and gives its handle. -/
def addState (d : LexerDefinition) (name : String) : Except LexerFault Nat × LexerDefinition :=
  if !isStateName name then (.error (.invalidStateName name), d)
  else if d.states.contains name then (.error (.duplicateState name), d)
  else (.ok (narrow16 d.states.size), { d with states := d.states.add name })

/-- The handle of a lexer state. -/
def stateId? (d : LexerDefinition) (name : String) : Option Nat :=
  (d.states.indexOf? name).map narrow16

/-- The name of a lexer state. -/
def stateName? (d : LexerDefinition) (state : Nat) : Option String := d.states.get? state

/-- The names of patterns: letters, digits, underscores and hyphens, with a letter or an
underscore at the start. -/
def isPatternName (name : String) : Bool := isName isNameStart isNamePart name

/-- Gives a pattern a name. -/
def namePattern (d : LexerDefinition) (name pattern : String) :
    Except LexerFault Unit × LexerDefinition :=
  if !isPatternName name then (.error (.invalidPatternName name), d)
  else if d.named.has name then (.error (.duplicatePattern name), d)
  else (.ok (), { d with named := d.named.declare name pattern })

end LexerDefinition

end FrontEnd
