import FrontEnd.Grammar.Basic
import FrontEnd.Text.Blank

/-!
# Grammar definitions

A grammar definition collects tokens, precedences and productions by name.  A right-hand side is a
list of names between blanks: identifiers, quoted literals, `|` between alternatives, `%empty` for
the empty alternative, and `%prec NAME` for the precedence of an alternative.

## Main Definitions

* `GrammarDefinition` — what has been collected
* `GrammarDefinition.declareTokens`, `GrammarDefinition.declarePrecedence`,
  `GrammarDefinition.addProductions` — the operations
* `readAlternatives` — the alternatives of a right-hand side
* `GrammarDefinition.resolve` — the grammar

## Design Notes

Each operation answers its result and the definition behind it, also when it fails.
-/

namespace FrontEnd

/-- A production by names. -/
structure NamedProduction where
  lhs : String
  rhs : List String
  /-- The token whose precedence the production has. -/
  precedence : Option String
deriving DecidableEq

/-- What has been collected for a grammar. -/
structure GrammarDefinition where
  /-- The tokens in the order of their declaration. -/
  tokens : NameTable (Option Precedence)
  /-- Number of precedence levels. -/
  numLevels : Nat
  productions : List NamedProduction

/-- The characters that an identifier may start with. -/
def isIdentifierStart (c : Char) : Bool := c.isAlpha || c == '_'

/-- The characters that an identifier may hold behind the first one. -/
def isIdentifierPart (c : Char) : Bool := c.isAlphanum || c == '_' || c == '.'

/-- Identifiers are made of ASCII letters, digits, underscores and dots, and start with a letter
or an underscore. -/
def isIdentifier (name : String) : Bool :=
  match name.toList with
  | [] => false
  | c :: cs => isIdentifierStart c && cs.all isIdentifierPart

/-- Literals stand between single quotes and are not empty. -/
def isLiteral (name : String) : Bool :=
  match name.toList with
  | '\'' :: c :: cs => (c :: cs).getLast? == some '\'' && !cs.isEmpty
  | _ => false

/-- Tokens are named by an identifier or a literal. -/
def isTokenName (name : String) : Bool := isIdentifier name || isLiteral name

/-- An alternative of which a part has been read. -/
structure Alternative where
  rhs : List String
  precedence : Option String
  /-- Whether it has been called empty. -/
  isEmpty : Bool

namespace Alternative

/-- The alternative of which nothing has been read. -/
def start : Alternative := ⟨[], none, false⟩

/-- The production of an alternative. -/
def production (lhs : String) (a : Alternative) : NamedProduction := ⟨lhs, a.rhs, a.precedence⟩

end Alternative

/-- The alternatives that the names of a right-hand side write. -/
def readAlternatives (lhs : String) :
    List String → Alternative → Except GrammarFault (List NamedProduction)
  | [], a => .ok [a.production lhs]
  | name :: rest, a =>
    if name = "|" then
      (readAlternatives lhs rest Alternative.start).map (a.production lhs :: ·)
    else if name = "%empty" then
      if a.rhs.isEmpty then readAlternatives lhs rest { a with isEmpty := true }
      else .error (.rhs lhs .emptyWithSymbols)
    else if name = "%prec" then
      match rest with
      | [] => .error (.rhs lhs .missingPrecToken)
      | token :: rest =>
        if a.precedence.isSome then .error (.rhs lhs .severalPrecs)
        else if isTokenName token then readAlternatives lhs rest { a with precedence := some token }
        else .error (.invalidName token)
    else if name.toList.head? = some '%' then .error (.rhs lhs (.unknownDirective name))
    else if a.isEmpty then .error (.rhs lhs .emptyWithSymbols)
    else if isTokenName name then readAlternatives lhs rest { a with rhs := a.rhs ++ [name] }
    else .error (.invalidName name)

/-- The names in a production: those of the right-hand side, then the one for the precedence. -/
def NamedProduction.names (p : NamedProduction) : List String := p.rhs ++ p.precedence.toList

/-- Enters the literals of some names that are not there. -/
def declareLiterals (tokens : NameTable (Option Precedence)) (names : List String) :
    NameTable (Option Precedence) :=
  (names.filter isLiteral).foldl (fun tokens name => tokens.declare name none) tokens

namespace GrammarDefinition

/-- Nothing has been collected. -/
def empty : GrammarDefinition := ⟨NameTable.empty, 0, []⟩

/-- Number of productions. -/
def numProductions (d : GrammarDefinition) : Nat := d.productions.length

/-- The identification of a token: tokens are numbered from 1 in the order of declaration. -/
def tokenId? (d : GrammarDefinition) (name : String) : Option TokenId :=
  (d.tokens.indexOf? name).map fun i => Int.ofNat i + 1

/-- Declares tokens by the names in a text. -/
def declareTokens (d : GrammarDefinition) (text : String) :
    Except GrammarFault Unit × GrammarDefinition :=
  let names := words text
  match names.find? fun name => !isTokenName name with
  | some name => (.error (.invalidName name), d)
  | none =>
    (.ok (), { d with
      tokens := names.foldl (fun tokens name => tokens.declare name none) d.tokens })

/-- Whether a token has a precedence. -/
def hasPrecedence (d : GrammarDefinition) (name : String) : Bool :=
  (d.tokens.get? name).join.isSome

/-- The first fault of names that are to get a precedence. -/
def precedenceFault? (d : GrammarDefinition) : List String → Option GrammarFault
  | [] => none
  | name :: names =>
    if !isTokenName name then some (.invalidName name)
    else if d.hasPrecedence name then some (.precedenceRedeclared name)
    else d.precedenceFault? names

/-- Gives the tokens that a text names a new precedence level above all others. -/
def declarePrecedence (d : GrammarDefinition) (associativity : Associativity) (text : String) :
    Except GrammarFault Unit × GrammarDefinition :=
  let names := words text
  match d.precedenceFault? names with
  | some fault => (.error fault, d)
  | none =>
    if names.isEmpty then (.ok (), d)
    else
      let level := narrow16 (d.numLevels + 1)
      (.ok (), { d with
        numLevels := level
        tokens := names.foldl
          (fun tokens name => tokens.put name (some ⟨level, associativity⟩)) d.tokens })

/-- Adds the productions that a right-hand side writes, declares its literals, and gives the
number of the first one. -/
def addProductions (d : GrammarDefinition) (lhs rhs : String) :
    Except GrammarFault Nat × GrammarDefinition :=
  if !isIdentifier lhs then (.error (.invalidName lhs), d)
  else
    match readAlternatives lhs (words rhs) Alternative.start with
    | .error fault => (.error fault, d)
    | .ok alternatives =>
      (.ok d.productions.length, { d with
        tokens := declareLiterals d.tokens (alternatives.flatMap NamedProduction.names)
        productions := d.productions ++ alternatives })

/-- The symbols of a definition: the tokens with their precedences, then the left-hand sides in
the order of the productions. -/
def tokenSymbols (d : GrammarDefinition) : SymbolTable :=
  d.tokens.toList.foldl
    (fun table (name, precedence) =>
      let (table, t) := table.addTerminal name
      match precedence with
      | some p => table.setPrecedence t p
      | none => table)
    SymbolTable.initial

/-- Adds the left-hand sides of productions, none of which may be a token. -/
def addLhsSymbols (d : GrammarDefinition) (table : SymbolTable) :
    List NamedProduction → Except GrammarFault SymbolTable
  | [] => .ok table
  | p :: rest =>
    if d.tokens.has p.lhs then .error (.tokenAsLhs p.lhs)
    else d.addLhsSymbols (table.addNonterminal p.lhs).1 rest

end GrammarDefinition

/-- The symbols with some names, in production `id`; terminals come before nonterminals. -/
def resolveNames (table : SymbolTable) (id : Nat) : List String → Except GrammarFault (List Symbol)
  | [] => .ok []
  | name :: names =>
    match table.findTerminal? name, table.findNonterminal? name with
    | some t, _ => (resolveNames table id names).map (.terminal t :: ·)
    | none, some v => (resolveNames table id names).map (.nonterminal v :: ·)
    | none, none => .error (.undeclaredSymbol name id)

/-- The precedence of the last terminal of a sequence that has one. -/
def lastPrecedence? (table : SymbolTable) (rhs : List Symbol) : Option Precedence :=
  rhs.reverse.findSome? fun s => s.terminal?.bind table.precedence?

/-- The precedence of production `id`: that of the token it names, otherwise that of the last
terminal that has one. -/
def resolvePrecedence (table : SymbolTable) (log : Log) (id : Nat) (rhs : List Symbol) :
    Option String → Except GrammarFault (Option Precedence × Log)
  | none => .ok (lastPrecedence? table rhs, log)
  | some name =>
    match table.findTerminal? name with
    | none => .error (.unknownPrecToken name id)
    | some t =>
      match table.precedence? t with
      | some p => .ok (some p, log)
      | none =>
        .ok (none, log.warning ("%prec " ++ name ++ " in production " ++ toString id ++
          ": the token has no precedence"))

/-- Resolves productions whose numbers begin with `id`. -/
def resolveProductions (table : SymbolTable) (log : Log) (id : Nat) :
    List NamedProduction → Except GrammarFault (List Production × Log)
  | [] => .ok ([], log)
  | p :: rest =>
    match resolveNames table id p.rhs with
    | .error e => .error e
    | .ok rhs =>
      match resolvePrecedence table log id rhs p.precedence with
      | .error e => .error e
      | .ok (precedence, log) =>
        let lhs := (table.findNonterminal? p.lhs).getD 0
        (resolveProductions table log (id + 1) rest).map fun (productions, log) =>
          (⟨lhs, rhs, precedence⟩ :: productions, log)

/-- The grammar of a definition. -/
def GrammarDefinition.resolve (d : GrammarDefinition) : Except GrammarFault Grammar :=
  if d.productions.isEmpty then .error .noProductions
  else
    match d.addLhsSymbols d.tokenSymbols d.productions with
    | .error e => .error e
    | .ok table =>
      match resolveProductions table Log.empty 0 d.productions with
      | .error e => .error e
      | .ok (productions, log) => Grammar.ofProductions table productions log

end FrontEnd
