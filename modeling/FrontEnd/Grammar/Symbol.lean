import FrontEnd.Names
import FrontEnd.Token

/-!
# Symbols

The terminals and nonterminals of a grammar, and the table of their names.

## Main Definitions

* `Associativity`, `Precedence` — how a terminal binds
* `Symbol` — a terminal or a nonterminal
* `SymbolTable` — names of symbols, and precedence of terminals
* `SymbolTable.symbolName` — the name of a symbol

## Design Notes

Terminal 0 is the end of the input, so the identifications of terminals are those of tokens.
-/

namespace FrontEnd

/-- What happens when two operators of one level follow each other. -/
inductive Associativity where
  /-- A level only, without associativity. -/
  | unspecified
  | left
  | right
  /-- It is an error. -/
  | nonAssociative
deriving DecidableEq

/-- The name of an associativity. -/
def Associativity.display : Associativity → String
  | .unspecified => "precedence"
  | .left => "left"
  | .right => "right"
  | .nonAssociative => "nonassoc"

/-- How a terminal or a production binds; higher levels bind tighter. -/
structure Precedence where
  level : Nat
  associativity : Associativity
deriving DecidableEq

/-- A symbol of a grammar. -/
inductive Symbol where
  | terminal (t : TokenId)
  | nonterminal (v : Nat)
deriving DecidableEq

namespace Symbol

/-- The order of symbols: terminals first, each kind by number. -/
def before : Symbol → Symbol → Bool
  | .terminal s, .terminal t => s < t
  | .terminal _, .nonterminal _ => true
  | .nonterminal _, .terminal _ => false
  | .nonterminal v, .nonterminal w => v < w

/-- A symbol by its number, with a colon in front of a terminal. -/
def display : Symbol → String
  | .terminal t => ":" ++ toString t
  | .nonterminal v => toString v

/-- The terminal, if the symbol is one. -/
def terminal? : Symbol → Option TokenId
  | .terminal t => some t
  | .nonterminal _ => none

/-- The nonterminal, if the symbol is one. -/
def nonterminal? : Symbol → Option Nat
  | .terminal _ => none
  | .nonterminal v => some v

end Symbol

/-- The name of the terminal that stands for the end of the input. -/
def endName : String := "$end"

/-- The names of symbols. -/
structure SymbolTable where
  /-- Names of the terminals, each with its precedence, in the order of their numbers. -/
  terminals : NameTable (Option Precedence)
  /-- Names of the nonterminals in the order of their numbers. -/
  nonterminals : NameList

namespace SymbolTable

/-- The end of the input is the only symbol. -/
def initial : SymbolTable := ⟨NameTable.empty.declare endName none, NameList.empty⟩

/-- Number of terminals. -/
def numTerminals (table : SymbolTable) : Nat := table.terminals.size

/-- Number of nonterminals. -/
def numNonterminals (table : SymbolTable) : Nat := table.nonterminals.size

/-- The terminal with a name. -/
def findTerminal? (table : SymbolTable) (name : String) : Option TokenId :=
  (table.terminals.indexOf? name).map Int.ofNat

/-- The nonterminal with a name. -/
def findNonterminal? (table : SymbolTable) (name : String) : Option Nat :=
  (table.nonterminals.indexOf? name).map narrow16

/-- Enters a terminal without precedence and gives its number.  A name that is there keeps its
number and loses its precedence. -/
def addTerminal (table : SymbolTable) (name : String) : SymbolTable × TokenId :=
  let table := { table with terminals := table.terminals.put name none }
  (table, (table.findTerminal? name).getD TokenId.endOfInput)

/-- Enters a nonterminal, unless it is there, and gives its number. -/
def addNonterminal (table : SymbolTable) (name : String) : SymbolTable × Nat :=
  match table.findNonterminal? name with
  | some v => (table, v)
  | none =>
    ({ table with nonterminals := table.nonterminals.add name },
      narrow16 table.nonterminals.size)

/-- The name of a terminal. -/
def terminalName? (table : SymbolTable) (t : TokenId) : Option String :=
  if t < 0 then none else table.terminals.names.get? t.toNat

/-- The name of a nonterminal. -/
def nonterminalName? (table : SymbolTable) (v : Nat) : Option String :=
  table.nonterminals.get? v

/-- The precedence of a terminal. -/
def precedence? (table : SymbolTable) (t : TokenId) : Option Precedence :=
  if t < 0 then none else table.terminals.values[t.toNat]?.join

/-- Sets the precedence of a terminal; an unknown one is ignored. -/
def setPrecedence (table : SymbolTable) (t : TokenId) (precedence : Precedence) : SymbolTable :=
  if t < 0 then table
  else { table with terminals := table.terminals.setAt t.toNat (some precedence) }

/-- The terminals with their names, without the end of the input. -/
def properTerminals (table : SymbolTable) : List (TokenId × String) :=
  (table.terminals.names.toList.zipIdx.map fun (name, t) => (Int.ofNat t, name)).drop 1

/-- The name of a symbol, or its number in the form of a call when it has none. -/
def symbolName (table : SymbolTable) : Symbol → String
  | .terminal t =>
    if t = TokenId.endOfInput then endName
    else (table.terminalName? t).getD ("T(" ++ toString t ++ ")")
  | .nonterminal v => (table.nonterminalName? v).getD ("NT(" ++ toString v ++ ")")

end SymbolTable

/-- A production `lhs -> rhs` with the precedence that resolves its conflicts. -/
structure Production where
  lhs : Nat
  rhs : List Symbol
  precedence : Option Precedence
deriving DecidableEq

/-- A production with the names that a function gives to its symbols. -/
def Production.display (name : Symbol → String) (p : Production) : String :=
  name (.nonterminal p.lhs) ++ " -> " ++
    (if p.rhs.isEmpty then "%empty" else String.intercalate " " (p.rhs.map name))

end FrontEnd
