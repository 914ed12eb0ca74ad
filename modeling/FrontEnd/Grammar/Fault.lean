/-!
# Faults of a grammar

## Main Definitions

* `RhsFault` — what is wrong with a right-hand side
* `GrammarFault` — what is wrong with a grammar
* `RhsFault.message`, `GrammarFault.message` — their wording
-/

namespace FrontEnd

/-- What is wrong with a written right-hand side. -/
inductive RhsFault where
  | emptyWithSymbols
  | missingPrecToken
  | severalPrecs
  | unknownDirective (name : String)
deriving DecidableEq

/-- The wording of a fault. -/
def RhsFault.message : RhsFault → String
  | .emptyWithSymbols => "%empty in a non-empty alternative"
  | .missingPrecToken => "missing token after %prec"
  | .severalPrecs => "several %prec in one alternative"
  | .unknownDirective name => "unknown directive " ++ name

/-- What is wrong with a grammar. -/
inductive GrammarFault where
  | invalidName (name : String)
  | precedenceRedeclared (name : String)
  | rhs (lhs : String) (fault : RhsFault)
  | noProductions
  | tokenAsLhs (name : String)
  | undeclaredSymbol (name : String) (production : Nat)
  | unknownPrecToken (name : String) (production : Nat)
  | unreachable (name : String)
  | unproductiveStart (name : String)
deriving DecidableEq

/-- The wording of a fault. -/
def GrammarFault.message : GrammarFault → String
  | .invalidName name => "invalid symbol name '" ++ name ++ "'"
  | .precedenceRedeclared name => "precedence of token '" ++ name ++ "' is already defined"
  | .rhs lhs fault => "syntax error in the production of '" ++ lhs ++ "': " ++ fault.message
  | .noProductions => "no production"
  | .tokenAsLhs name => "token '" ++ name ++ "' is used as the left-hand side of a production"
  | .undeclaredSymbol name production =>
    "undeclared symbol '" ++ name ++ "' in production " ++ toString production
  | .unknownPrecToken name production =>
    "%prec refers to the unknown token '" ++ name ++ "' in production " ++ toString production
  | .unreachable name => "nonterminal '" ++ name ++ "' is unreachable from the start symbol"
  | .unproductiveStart name =>
    "start symbol '" ++ name ++ "' doesn't derive any finite string of tokens"

/-- A name that is no symbol. -/
structure UnknownSymbol where
  name : String
deriving DecidableEq

/-- The wording of an unknown name. -/
def UnknownSymbol.message (u : UnknownSymbol) : String := "unknown symbol '" ++ u.name ++ "'"

end FrontEnd
