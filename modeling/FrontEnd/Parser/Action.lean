import FrontEnd.Grammar.Symbol
import FrontEnd.Grid

/-!
# Parse tables

## Main Definitions

* `ParseFault` — why a token is refused
* `Action` — an entry of the tables
* `ParseTables` — the actions for terminals and the states behind nonterminals
-/

namespace FrontEnd

/-- Why a token is refused. -/
inductive ParseFault where
  /-- The token is not expected. -/
  | unexpected
  /-- Two operators of one level follow each other that do not associate. -/
  | nonAssociative
  /-- The token is no terminal of the grammar. -/
  | unknownToken
deriving DecidableEq

/-- The wording of a fault. -/
def ParseFault.message : ParseFault → String
  | .unexpected => "syntax error"
  | .nonAssociative => "non-associative operator"
  | .unknownToken => "unknown token"

/-- The number of a fault. -/
def ParseFault.code : ParseFault → Nat
  | .unexpected => 0
  | .nonAssociative => 1
  | .unknownToken => 2

/-- An entry of the parse tables. -/
inductive Action where
  | shift (state : Nat)
  | reduce (production : Nat)
  | goto (state : Nat)
  | accept
  | error (fault : ParseFault)
deriving DecidableEq

namespace Action

/-- The entry where nothing else has been entered. -/
def default : Action := .error .unexpected

/-- The number of the kind of an action. -/
def kind : Action → Nat
  | .error _ => 0
  | .shift _ => 1
  | .reduce _ => 2
  | .goto _ => 3
  | .accept => 4

/-- A readable form of an action. -/
def display : Action → String
  | .shift s => "shift " ++ toString s
  | .reduce p => "reduce " ++ toString p
  | .goto s => "goto " ++ toString s
  | .accept => "accept"
  | .error fault => "error (" ++ fault.message ++ ")"

/-- Whether the token is refused. -/
def isError : Action → Bool
  | .error _ => true
  | _ => false

end Action

/-- The tables of a parser. -/
structure ParseTables where
  /-- The action for each terminal, one row for each state. -/
  actions : Grid Action
  /-- The state behind each nonterminal, one row for each state. -/
  gotos : Grid (Option Nat)
deriving DecidableEq

namespace ParseTables

/-- Number of states. -/
def numStates (t : ParseTables) : Nat := t.actions.rows

/-- Number of terminals. -/
def numTerminals (t : ParseTables) : Nat := t.actions.columns

/-- Number of nonterminals. -/
def numNonterminals (t : ParseTables) : Nat := t.gotos.columns

/-- The action for a token in a state. -/
def action (t : ParseTables) (state : Nat) (token : TokenId) : Action :=
  if token < 0 then .error .unknownToken
  else (t.actions.get? state token.toNat).getD (.error .unknownToken)

/-- The state behind a nonterminal, as an action. -/
def goto (t : ParseTables) (state v : Nat) : Action :=
  match (t.gotos.get? state v).join with
  | some target => .goto target
  | none => Action.default

/-- Enters actions into the row of a state. -/
def enterActions (grid : Grid Action) (state : Nat) (entries : List (TokenId × Action)) :
    Grid Action :=
  entries.foldl (fun grid (t, action) => grid.setAt state t action) grid

/-- The tables with the given entries: actions by state, and single states behind nonterminals. -/
def ofEntries (numTerminals numNonterminals : Nat) (actions : List (List (TokenId × Action)))
    (gotos : List (Nat × Nat × Nat)) : ParseTables where
  actions :=
    actions.zipIdx.foldl (fun grid (entries, state) => enterActions grid state entries)
      (Grid.filled actions.length numTerminals Action.default)
  gotos :=
    gotos.foldl (fun grid (state, v, target) => grid.setAt state (Int.ofNat v) (some target))
      (Grid.filled actions.length numNonterminals none)

end ParseTables

end FrontEnd
