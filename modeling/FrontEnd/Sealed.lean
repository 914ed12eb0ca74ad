import FrontEnd.Lexer.Build
import FrontEnd.Parser.Run

/-!
# Open and sealed

A definition that is open for changes until it is built, and from then on is only the thing that
was built.

## Main Definitions

* `Stage` — a definition or what was built from it
* `SealedFault` — why an operation is refused
* `LexerStage`, `ParserStage` — lexers and parsers with their operations
* `Verdict` — whether an input is accepted

## Design Notes

Each operation answers its result and the stage behind it, also when it fails.
-/

namespace FrontEnd

/-- A definition that is open, or what was built from it. -/
inductive Stage (δ β : Type) where
  /-- The definition can be changed. -/
  | opened (definition : δ)
  /-- The definition has been built. -/
  | built (thing : β)

/-- Why an operation is refused. -/
inductive SealedFault where
  /-- The definition has been built and can not be changed. -/
  | sealed
  /-- Nothing has been built. -/
  | notSealed
  | lexer (fault : LexerFault)
  | grammar (fault : GrammarFault)
  | unknownSymbol (unknown : UnknownSymbol)
deriving DecidableEq

/-- The wording of a refusal. -/
def SealedFault.message : SealedFault → String
  | .sealed => "the state machine is sealed"
  | .notSealed => "the state machine is not built"
  | .lexer fault => fault.message
  | .grammar fault => fault.message
  | .unknownSymbol unknown => unknown.message

namespace Stage

variable {δ β ε α : Type}

/-- Whether the definition has been built. -/
def isSealed : Stage δ β → Bool
  | .opened _ => false
  | .built _ => true

/-- What was built. -/
def thing : Stage δ β → Except SealedFault β
  | .opened _ => .error .notSealed
  | .built b => .ok b

/-- Changes an open definition. -/
def change (stage : Stage δ β) (fault : ε → SealedFault) (f : δ → Except ε α × δ) :
    Except SealedFault α × Stage δ β :=
  match stage with
  | .built b => (.error .sealed, .built b)
  | .opened d =>
    match f d with
    | (.ok a, d) => (.ok a, .opened d)
    | (.error e, d) => (.error (fault e), .opened d)

/-- Builds an open definition.  It stays open when that fails. -/
def build (stage : Stage δ β) (fault : ε → SealedFault) (f : δ → Except ε β) :
    Except SealedFault Unit × Stage δ β :=
  match stage with
  | .built b => (.error .sealed, .built b)
  | .opened d =>
    match f d with
    | .ok b => (.ok (), .built b)
    | .error e => (.error (fault e), .opened d)

end Stage

/-- A lexer that is built step by step. -/
abbrev LexerStage := Stage LexerDefinition Lexer

namespace LexerStage

/-- An open lexer without rules. -/
def new : LexerStage := .opened LexerDefinition.empty

/-- Adds a rule. -/
def addRule (stage : LexerStage) (rule : Rule) : Except SealedFault Nat × LexerStage :=
  stage.change .lexer fun d => d.addRule rule

/-- Adds a rule in the lexer states that a text names, with a written destination. -/
def addRuleIn (stage : LexerStage) (states destination : String) (rule : Rule) :
    Except SealedFault Nat × LexerStage :=
  stage.addRule { rule with
    scope := RuleScope.parse states
    destination := Destination.parse destination }

/-- Adds a lexer state. -/
def addState (stage : LexerStage) (name : String) : Except SealedFault Nat × LexerStage :=
  stage.change .lexer fun d => d.addState name

/-- The handle of a lexer state. -/
def stateId? : LexerStage → String → Option Nat
  | .opened d, name => d.stateId? name
  | .built l, name => l.stateId? name

/-- Sets the options by their bits. -/
def setFlags (stage : LexerStage) (bits : Nat) : Except SealedFault Unit × LexerStage :=
  stage.change SealedFault.lexer fun d => (.ok (), d.setFlags (Flags.ofBits bits))

/-- The options. -/
def flags : LexerStage → Flags
  | .opened d => d.flags
  | .built l => l.flags

/-- Builds the lexer. -/
def buildLexer (stage : LexerStage) : Except SealedFault Unit × LexerStage :=
  stage.build .lexer LexerDefinition.build

/-- The tokens of an input, and the cursor behind them. -/
def consume (stage : LexerStage) (input : List UInt8) : Except SealedFault (List Token × Cursor) :=
  stage.thing.map fun l => l.tokens (Cursor.start input initialState)

end LexerStage

/-- A parser that is built step by step. -/
abbrev ParserStage := Stage GrammarDefinition Parser

/-- Whether an input is accepted. -/
inductive Verdict where
  | accepted
  | rejected (error : ParseError)
deriving DecidableEq

namespace ParserStage

/-- An open grammar without productions. -/
def new : ParserStage := .opened GrammarDefinition.empty

/-- Declares tokens. -/
def declareTokens (stage : ParserStage) (names : String) :
    Except SealedFault Unit × ParserStage :=
  stage.change .grammar fun d => d.declareTokens names

/-- Declares tokens with a new precedence level. -/
def declarePrecedence (stage : ParserStage) (associativity : Associativity) (names : String) :
    Except SealedFault Unit × ParserStage :=
  stage.change .grammar fun d => d.declarePrecedence associativity names

/-- Adds productions. -/
def addProductions (stage : ParserStage) (lhs rhs : String) :
    Except SealedFault Nat × ParserStage :=
  stage.change .grammar fun d => d.addProductions lhs rhs

/-- Builds the parser. -/
def buildParser (stage : ParserStage) : Except SealedFault Unit × ParserStage :=
  stage.build .grammar GrammarDefinition.buildParser

/-- The identification of a token. -/
def tokenId (stage : ParserStage) (name : String) : Except SealedFault TokenId :=
  match stage with
  | .opened d =>
    match d.tokenId? name with
    | some t => .ok t
    | none => .error (.unknownSymbol ⟨name⟩)
  | .built p =>
    match p.tokenId name with
    | .ok t => .ok t
    | .error e => .error (.unknownSymbol e)

/-- Parses an input with the tokens of a lexer; the answer is missing when the parse does not
end. -/
def parse (stage : ParserStage) (lexer : LexerStage) (input : List UInt8) :
    Except SealedFault (Option Verdict) :=
  match stage.thing with
  | .error e => .error e
  | .ok p =>
    match lexer.thing with
    | .error e => .error e
    | .ok l =>
      .ok ((p.parseInput Semantics.trivial l input).map fun run =>
        match run.result with
        | .ok _ => .accepted
        | .error e => .rejected e)

end ParserStage

end FrontEnd
