import FrontEnd.Token

/-!
# Terminal instructions

What the rules of a lexer tell it to do after a match.

## Main Definitions

* `StateChange` — the lexer state after a match
* `Terminal` — the token, the user data and the state change of a rule
-/

namespace FrontEnd

/-- The handle of the lexer state that always exists. -/
def initialState : Nat := 0

/-- The name of the lexer state that always exists. -/
def initialStateName : String := "INITIAL"

/-- Change of the lexer state after a match. -/
inductive StateChange where
  | stay
  | goto (state : Nat)
  /-- Keeps the current state on the stack and goes to another one. -/
  | push (state : Nat)
  /-- Returns to the state on the top of the stack, or to the initial one when there is none. -/
  | pop
deriving DecidableEq

/-- A readable form of a change. -/
def StateChange.display : StateChange → String
  | .stay => "."
  | .goto s => toString s
  | .push s => ">" ++ toString s
  | .pop => "<"

/-- What a rule tells the lexer to do after a match. -/
structure Terminal where
  token : TokenId
  userData : Nat
  change : StateChange
deriving DecidableEq

namespace Terminal

/-- Whether matches are dropped. -/
def isSkip (t : Terminal) : Bool := t.token < 0

/-- A readable form of the instructions; what has no effect is left out. -/
def display (t : Terminal) : String :=
  (if t.isSkip then "<skip" else "<end:" ++ toString t.token) ++
    (if t.userData = 0 then "" else ",data " ++ toString t.userData) ++
    (if t.change = .stay then "" else ",state " ++ t.change.display) ++ ">"

end Terminal

end FrontEnd
