import FrontEnd.Lexer.Cursor
import FrontEnd.Parser.Basic

/-!
# Parsing

The run of a parser over a sequence of tokens.  One step looks at the state on the top of the stack
and at the next token, and shifts the token, reduces a production, or ends the run.

## Main Definitions

* `ParseError` — the refusal of a token
* `Semantics` — the values of tokens and of productions
* `Event` — what has happened in a run
* `Configuration` — the stacks of a run and the tokens that are left
* `Parser.step`, `Parser.run` — one step, and steps up to the end
* `Parser.parse` — the run over a sequence of tokens

## Design Notes

Where conflicts were resolved, reductions may follow each other without end, so a run has a bound
for its steps.  A run that is cut off has no result, which is neither acceptance nor refusal.
-/

namespace FrontEnd

/-- The refusal of a token. -/
structure ParseError where
  fault : ParseFault
  /-- State of the parser. -/
  state : Nat
  token : TokenId
  /-- Offset of the first byte of the token. -/
  start : Nat
  /-- Offset behind the last byte of the token. -/
  stop : Nat
  /-- The terminals that are not refused in this state. -/
  expected : List TokenId
deriving DecidableEq

/-- The wording of a refusal. -/
def ParseError.message (e : ParseError) : String :=
  e.fault.message ++ " on token " ++ toString e.token ++ " at position " ++ toString e.start

/-- The values of tokens, and of productions by the values of their right-hand side. -/
structure Semantics (α : Type) where
  shift : Token → α
  reduce : Nat → Nat → List α → α

/-- The semantics without values. -/
def Semantics.trivial : Semantics Unit := ⟨fun _ => (), fun _ _ _ => ()⟩

/-- What has happened in a run. -/
inductive Event where
  | shift (token : Token)
  /-- A production with its left-hand side and the number of symbols that it replaces. -/
  | reduce (production lhs size : Nat)
  | accept
deriving DecidableEq

/-- The stacks of a run and the tokens that are left. -/
structure Configuration (α : Type) where
  /-- The states, the latest one first. -/
  states : List Nat
  /-- The values of the symbols, the latest one first. -/
  values : List α
  /-- The tokens that have not been shifted. -/
  input : List Token
  /-- The offset behind the last token that has been shifted. -/
  position : Nat
  /-- What has happened, the latest event first. -/
  events : List Event

namespace Configuration

/-- The start of a run. -/
def start (α : Type) (input : List Token) : Configuration α := ⟨[0], [], input, 0, []⟩

/-- The state on the top of the stack. -/
def top (c : Configuration α) : Nat := c.states.headD 0

/-- The next token; behind the last one it is the end of the input. -/
def token (c : Configuration α) : Token := c.input.headD (Token.atEnd c.position)

end Configuration

/-- What one step leads to. -/
inductive StepResult (α : Type) where
  | running (c : Configuration α)
  | accepted (value : α) (events : List Event)
  | refused (error : ParseError) (events : List Event)

/-- The end of a run: its result and what has happened in it. -/
structure Run (α : Type) where
  result : Except ParseError α
  events : List Event

namespace Parser

/-- The refusal of a token in a state. -/
def refusal (p : Parser) (fault : ParseFault) (state : Nat) (token : Token) : ParseError :=
  ⟨fault, state, token.id, token.start, token.stop, p.expected state⟩

/-- The step that reduces a production. -/
def reduceStep (p : Parser) (s : Semantics α) (c : Configuration α) (production : Nat) :
    StepResult α :=
  let rule := p.productions.getD production ⟨0, [], none⟩
  let size := rule.rhs.length
  let states := c.states.drop size
  let value := s.reduce production rule.lhs (c.values.take size).reverse
  let events := .reduce production rule.lhs size :: c.events
  let top := states.headD 0
  match p.goto top rule.lhs with
  | .goto target =>
    .running { c with
      states := target :: states
      values := value :: c.values.drop size
      events := events }
  | _ => .refused (p.refusal .unexpected top c.token) events

/-- One step of a run. -/
def step (p : Parser) (s : Semantics α) (c : Configuration α) : StepResult α :=
  let token := c.token
  match p.action c.top token.id with
  | .shift target =>
    .running
      { states := target :: c.states
        values := s.shift token :: c.values
        input := c.input.tail
        position := token.stop
        events := .shift token :: c.events }
  | .reduce production => p.reduceStep s c production
  | .accept =>
    match c.values with
    | value :: _ => .accepted value (.accept :: c.events)
    | [] => .refused (p.refusal .unexpected c.top token) (.accept :: c.events)
  | .goto _ => .refused (p.refusal .unexpected c.top token) c.events
  | .error fault => .refused (p.refusal fault c.top token) c.events

/-- Steps up to the end of a run, or nothing when the bound is reached before. -/
def run (p : Parser) (s : Semantics α) : Nat → Configuration α → Option (Run α)
  | 0, _ => none
  | bound + 1, c =>
    match p.step s c with
    | .running c => p.run s bound c
    | .accepted value events => some ⟨.ok value, events.reverse⟩
    | .refused e events => some ⟨.error e, events.reverse⟩

/-- The bound of a parse, beyond what can be computed. -/
def stepLimit : Nat := 1 <<< 62

/-- The run over a sequence of tokens; the end of the sequence is the end of the input. -/
def parse (p : Parser) (s : Semantics α) (tokens : List Token) : Option (Run α) :=
  p.run s stepLimit (Configuration.start α tokens)

/-- The run over the tokens that a lexer finds in an input. -/
def parseInput (p : Parser) (s : Semantics α) (l : Lexer) (input : List UInt8) :
    Option (Run α) :=
  p.parse s (l.tokens (Cursor.start input initialState)).1

end Parser

end FrontEnd
