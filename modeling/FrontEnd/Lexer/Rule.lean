import FrontEnd.Lexer.Terminal
import FrontEnd.Names
import FrontEnd.Regex.Error
import FrontEnd.Text.Blank

/-!
# Rules of a lexer

## Main Definitions

* `StateRef` — a lexer state, by handle or by name
* `RuleScope` — the states in which a rule is active
* `Destination` — the lexer state after a match
* `RuleScope.parse`, `Destination.parse` — their written forms
* `Rule` — a rule
* `LexerFault` — what is wrong with a definition
-/

namespace FrontEnd

/-- A reference to a lexer state. -/
inductive StateRef where
  | handle (state : Nat)
  | name (name : String)
deriving DecidableEq

/-- The lexer states in which a rule is active. -/
inductive RuleScope where
  | states (states : List StateRef)
  | all
deriving DecidableEq

/-- The lexer state after a match of a rule. -/
inductive Destination where
  | stay
  | goto (state : StateRef)
  | push (state : StateRef)
  | pop
deriving DecidableEq

/-- Reads a scope: a star for all states, otherwise names between commas. -/
def RuleScope.parse (text : String) : RuleScope :=
  let list := trimChars text.toList
  if list = ['*'] then .all
  else
    .states ((splitChars (· == ',') list).map fun name =>
      .name (String.ofList (trimChars name)))

/-- Reads a destination: a dot to stay, `<` to return, `>` and a name to push, otherwise a name to
go to. -/
def Destination.parse (text : String) : Destination :=
  match trimChars text.toList with
  | ['.'] => .stay
  | ['<'] => .pop
  | '>' :: name => .push (.name (String.ofList (trimChars name)))
  | name => .goto (.name (String.ofList name))

/-- A rule of a lexer. -/
structure Rule where
  pattern : String
  /-- The match goes on to the first match of this pattern. -/
  stop : Option String
  token : TokenId
  userData : Nat
  scope : RuleScope
  destination : Destination
deriving DecidableEq

namespace Rule

/-- The scope of a rule that is active in the initial state only. -/
def initialScope : RuleScope := .states [.handle initialState]

/-- A rule that returns a token in the initial state. -/
def simple (pattern : String) (token : TokenId) : Rule :=
  ⟨pattern, none, token, 0, initialScope, .stay⟩

/-- A rule whose matches go on to the first match of another pattern. -/
def range (pattern stop : String) (token : TokenId) : Rule :=
  { simple pattern token with stop := some stop }

/-- A rule whose matches are dropped. -/
def skip (pattern : String) : Rule := simple pattern TokenId.skip

/-- The rule that skips blanks in all states. -/
def blanks : Rule := { skip "[ \\t\\n\\r\\f\\v]+" with scope := .all }

end Rule

/-- What is wrong with a lexer definition. -/
inductive LexerFault where
  | reservedToken (token : TokenId)
  | duplicateState (name : String)
  | invalidStateName (name : String)
  | duplicatePattern (name : String)
  | invalidPatternName (name : String)
  | unknownState (rule : Nat) (state : String)
  | pattern (rule : Nat) (error : PatternError)
  | matchesEmpty (rule : Nat)
deriving DecidableEq

/-- The wording of a fault. -/
def LexerFault.message : LexerFault → String
  | .reservedToken token =>
    "token ID " ++ toString token ++ " is reserved for the end of input"
  | .duplicateState name => "lexer state '" ++ name ++ "' is already defined"
  | .invalidStateName name => "invalid lexer state name '" ++ name ++ "'"
  | .duplicatePattern name => "macro '" ++ name ++ "' is already defined"
  | .invalidPatternName name => "invalid macro name '" ++ name ++ "'"
  | .unknownState rule state =>
    "rule " ++ toString rule ++ " refers to the unknown lexer state '" ++ state ++ "'"
  | .pattern rule error => "rule " ++ toString rule ++ ": " ++ error.message
  | .matchesEmpty rule =>
    "rule " ++ toString rule ++ " can match an empty string (MATCH_ZERO_LEN is not set)"

end FrontEnd
