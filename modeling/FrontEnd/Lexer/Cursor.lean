import FrontEnd.Lexer.Basic

/-!
# Cursors

A cursor is a place in an input together with the lexer state and the stack of states.  Tokens are
taken from it one by one.

## Main Definitions

* `Cursor` — the place
* `Lexer.step` — one match, one invalid byte, or the end of the input
* `Lexer.advance` — the next token
* `Lexer.next` — the next token, none at the end of the input
* `Lexer.tokens` — all tokens up to the end of the input

## Design Notes

A cursor divides its input into the bytes passed and the bytes left, so that a step looks only at
the bytes around it.  A match of the empty string is allowed once for each place and lexer state.
So between two moves of the cursor there are at most as many matches as there are lexer states, and
`Cursor.stepBound` is never used up.
-/

namespace FrontEnd

/-- A place in an input with the state of the lexer. -/
structure Cursor where
  /-- The bytes that have been passed, the latest one first. -/
  behind : List UInt8
  /-- The bytes that are left. -/
  ahead : List UInt8
  /-- Number of bytes that have been passed. -/
  position : Nat
  /-- Length of the input. -/
  size : Nat
  state : Nat
  /-- The states to return to, the latest one first. -/
  stack : List Nat
  /-- The place of the latest match of the empty string. -/
  emptyAt : Nat
  /-- The lexer states that have matched the empty string there. -/
  emptyStates : List Nat
  /-- The end of the input has been seen by `Lexer.next`. -/
  ended : Bool
  /-- The numbers agree with the bytes. -/
  position_eq : position = behind.length
  size_eq : size = position + ahead.length
deriving DecidableEq

namespace Cursor

/-- A cursor at the start of an input. -/
def start (input : List UInt8) (state : Nat) : Cursor :=
  ⟨[], input, 0, input.length, state, [], 0, [], false, rfl, by simp⟩

/-- The input of a cursor. -/
def input (c : Cursor) : List UInt8 := c.behind.reverse ++ c.ahead

/-- The cursor in another lexer state. -/
def setState (c : Cursor) (state : Nat) : Cursor := { c with state := state }

/-- The cursor behind a number of the bytes that are left. -/
def forward (c : Cursor) (length : Nat) : Cursor :=
  let passed := c.ahead.take length
  { c with
    behind := passed.reverse ++ c.behind
    ahead := c.ahead.drop length
    position := c.position + passed.length
    position_eq := by simp [c.position_eq, Nat.add_comm]
    size_eq := by
      rw [c.size_eq, Nat.add_assoc, ← List.length_append, List.take_append_drop] }

/-- The cursor after a state change. -/
def apply (c : Cursor) : StateChange → Cursor
  | .stay => c
  | .goto s => { c with state := s }
  | .push s => { c with state := s, stack := c.state :: c.stack }
  | .pop =>
    match c.stack with
    | [] => { c with state := initialState }
    | s :: stack => { c with state := s, stack := stack }

/-- The lexer states that have matched the empty string at the place of the cursor. -/
def emptyStatesHere (c : Cursor) : List Nat := if c.emptyAt = c.position then c.emptyStates else []

/-- The cursor that remembers a match of the empty string, when there was none yet at this place
in this state. -/
def rememberEmpty? (c : Cursor) : Option Cursor :=
  if c.emptyStatesHere.contains c.state then none
  else some { c with emptyAt := c.position, emptyStates := c.state :: c.emptyStatesHere }

/-- The token of a number of the bytes that are left. -/
def token (c : Cursor) (id : TokenId) (userData length state : Nat) : Token :=
  ⟨id, userData, c.position, c.position + length, state, c.ahead.take length⟩

/-- The token at the end of the input. -/
def endToken (c : Cursor) : Token := ⟨TokenId.endOfInput, 0, c.size, c.size, c.state, []⟩

/-- Whether there are no bytes left. -/
def atEnd (c : Cursor) : Bool := c.ahead.isEmpty

/-- Number of steps that are enough to reach the next token with a number of lexer states. -/
def stepBound (c : Cursor) (numStates : Nat) : Nat := (c.size - c.position) * (numStates + 1) + 1

end Cursor

namespace Lexer

/-- The match at the place of a cursor, if it is allowed: the rule, the number of bytes, and the
cursor that remembers a match of the empty string. -/
def matchAt (l : Lexer) (c : Cursor) : Option (Nat × Nat × Cursor) :=
  match l.matchAhead c.behind c.ahead c.state with
  | none => none
  | some (rule, length) =>
    if length = 0 then c.rememberEmpty?.map fun c => (rule, length, c)
    else some (rule, length, c)

/-- One step of a cursor: a token and the cursor behind it, where the token is missing when the
match is dropped. -/
def step (l : Lexer) (c : Cursor) : Option Token × Cursor :=
  if c.atEnd then (some c.endToken, c)
  else
    match l.matchAt c with
    | none => (some (c.token TokenId.invalid 0 1 c.state), c.forward 1)
    | some (rule, length, after) =>
      let t := (l.terminal? rule).getD ⟨TokenId.skip, 0, .stay⟩
      let after := (after.apply t.change).forward length
      (if t.isSkip then none else some (c.token t.token t.userData length after.state), after)

/-- Steps until there is a token. -/
def advanceWithin (l : Lexer) : Nat → Cursor → Token × Cursor
  | 0, c => (c.endToken, c)
  | bound + 1, c =>
    match l.step c with
    | (some t, c) => (t, c)
    | (none, c) => l.advanceWithin bound c

/-- The next token.  Dropped matches are passed over, a byte that no rule matches is an invalid
token, and at the end of the input there is the token for the end, again and again. -/
def advance (l : Lexer) (c : Cursor) : Token × Cursor :=
  l.advanceWithin (c.stepBound l.numStates) c

/-- The next token, or none at the end of the input and ever after. -/
def next (l : Lexer) (c : Cursor) : Option Token × Cursor :=
  if c.ended then (none, c)
  else
    match l.advance c with
    | (t, c) => if t.isEndOfInput then (none, { c with ended := true }) else (some t, c)

/-- At most so many tokens, and the cursor behind them. -/
def tokensWithin (l : Lexer) : Nat → Cursor → List Token × Cursor
  | 0, c => ([], c)
  | bound + 1, c =>
    match l.next c with
    | (none, c) => ([], c)
    | (some t, c) =>
      let (tokens, c) := l.tokensWithin bound c
      (t :: tokens, c)

/-- All tokens up to the end of the input, and the cursor there. -/
def tokens (l : Lexer) (c : Cursor) : List Token × Cursor :=
  l.tokensWithin (c.stepBound l.numStates) c

end Lexer

end FrontEnd
