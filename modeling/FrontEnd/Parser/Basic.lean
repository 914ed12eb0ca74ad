import FrontEnd.Grammar.Definition
import FrontEnd.Lalr.Tables
import FrontEnd.Text.Lines

/-!
# Parsers

A parser holds the symbols, the productions and the tables of a grammar.

## Main Definitions

* `Parser` — a parser
* `Parser.expected` — the terminals that a state does not refuse
* `Parser.display` — the tables in a readable form
* `Parser.lines` — its lines
* `GrammarDefinition.buildParser` — the parser of a definition
-/

namespace FrontEnd

/-- The symbols, the productions and the tables of a grammar. -/
structure Parser where
  symbols : SymbolTable
  productions : Array Production
  tables : ParseTables
  log : Log

namespace Parser

/-- Number of states. -/
def numStates (p : Parser) : Nat := p.tables.numStates

/-- Number of productions. -/
def numProductions (p : Parser) : Nat := p.productions.size

/-- A production by its number. -/
def production? (p : Parser) (i : Nat) : Option Production := p.productions[i]?

/-- The terminal with a name. -/
def tokenId (p : Parser) (name : String) : Except UnknownSymbol TokenId :=
  match p.symbols.findTerminal? name with
  | some t => .ok t
  | none => .error ⟨name⟩

/-- The nonterminal with a name. -/
def nonterminalId (p : Parser) (name : String) : Except UnknownSymbol Nat :=
  match p.symbols.findNonterminal? name with
  | some v => .ok v
  | none => .error ⟨name⟩

/-- The action for a token in a state. -/
def action (p : Parser) (state : Nat) (token : TokenId) : Action := p.tables.action state token

/-- The state behind a nonterminal, as an action. -/
def goto (p : Parser) (state v : Nat) : Action := p.tables.goto state v

/-- The terminals in the order of their numbers. -/
def terminals (p : Parser) : List TokenId := (List.range p.tables.numTerminals).map Int.ofNat

/-- The terminals that a state does not refuse. -/
def expected (p : Parser) (state : Nat) : List TokenId :=
  p.terminals.filter fun t => !(p.action state t).isError

/-- The name of a token, or its number when it has none. -/
def tokenName (p : Parser) (t : TokenId) : String :=
  (p.symbols.terminalName? t).getD ("#" ++ toString t)

/-- A number that is padded to three characters. -/
def padded (n : Nat) : String :=
  let digits := (toString n).toList
  String.ofList (List.replicate (3 - digits.length) ' ' ++ digits)

/-- The entries of a state in a readable form; plain errors are left out. -/
def displayState (p : Parser) (state : Nat) : String :=
  let actions := p.terminals.filterMap fun t =>
    let action := p.action state t
    if action = Action.default then none else some (p.tokenName t ++ ": " ++ action.display)
  let gotos := (List.range p.symbols.numNonterminals).filterMap fun v =>
    match p.goto state v with
    | .goto target =>
      some (p.symbols.symbolName (.nonterminal v) ++ ": goto " ++ toString target)
    | _ => none
  padded state ++ ": " ++ String.intercalate ", " (actions ++ gotos)

/-- The tables in a readable form, one state behind the other. -/
def display (p : Parser) : String :=
  String.intercalate "\n" ((List.range p.numStates).map p.displayState)

/-- The lines of the tables in a readable form.  A state takes one line unless the name of a symbol
has a line feed in it. -/
def lines (p : Parser) : List String := linesOf p.display

end Parser

/-- The parser of a grammar. -/
def Grammar.parser (g : Grammar) : Parser :=
  let generated := g.generate
  ⟨g.symbols, g.productions, generated.tables, g.log.append generated.log⟩

/-- Builds the parser of a definition. -/
def GrammarDefinition.buildParser (d : GrammarDefinition) : Except GrammarFault Parser :=
  d.resolve.map Grammar.parser

end FrontEnd
