import FrontEnd.Grammar.Fault
import FrontEnd.Grammar.First
import FrontEnd.Log

/-!
# Grammars

A grammar whose symbols are known by their numbers, and the checks that it has to pass.

## Main Definitions

* `Grammar` — symbols, productions and first sets
* `reachable`, `productive` — the nonterminals that the start symbol reaches, and those that
  derive a string of terminals
* `Grammar.ofProductions` — checks productions and makes a grammar of them
-/

namespace FrontEnd

/-- A grammar that has passed the checks. -/
structure Grammar where
  symbols : SymbolTable
  productions : Array Production
  first : FirstTable
  log : Log

/-- The start symbol: the left-hand side of the first production. -/
def startSymbol (productions : List Production) : Nat :=
  match productions with
  | [] => 0
  | p :: _ => p.lhs

/-- The nonterminals in the right-hand sides of a nonterminal. -/
def mentioned (productions : List Production) (v : Nat) : List Nat :=
  (productions.filter fun p => p.lhs == v).flatMap fun p => p.rhs.filterMap Symbol.nonterminal?

/-- The nonterminals that the start symbol reaches. -/
def reachable (numNonterminals : Nat) (productions : List Production) : List Nat :=
  Worklist.reach (mentioned productions) numNonterminals [startSymbol productions]

/-- Whether all nonterminals of a sequence are among the given ones. -/
def allAmong (known : List Nat) (rhs : List Symbol) : Bool :=
  (rhs.filterMap Symbol.nonterminal?).all known.contains

/-- Adds the left-hand sides whose right-hand side is productive already. -/
def extendProductive (productions : List Production) (known : List Nat) : List Nat :=
  productions.foldl
    (fun known p =>
      if !known.contains p.lhs && allAmong known p.rhs then p.lhs :: known else known)
    known

/-- The nonterminals that derive a string of terminals. -/
def productive (numNonterminals : Nat) (productions : List Production) : List Nat :=
  iterateUntilStable (extendProductive productions) (numNonterminals + 1) []

/-- The terminals that occur in right-hand sides. -/
def usedTerminals (productions : List Production) : List TokenId :=
  productions.flatMap fun p => p.rhs.filterMap Symbol.terminal?

namespace Grammar

/-- The start symbol. -/
def start (g : Grammar) : Nat := startSymbol g.productions.toList

/-- Number of terminals. -/
def numTerminals (g : Grammar) : Nat := g.symbols.numTerminals

/-- Number of nonterminals. -/
def numNonterminals (g : Grammar) : Nat := g.symbols.numNonterminals

/-- A production by its number. -/
def production? (g : Grammar) (p : Nat) : Option Production := g.productions[p]?

/-- The numbers of the productions of a nonterminal, in ascending order. -/
def productionsOf (g : Grammar) (v : Nat) : List Nat :=
  (g.productions.toList.zipIdx.filter fun (p, _) => p.lhs == v).map Prod.snd

/-- What a sequence of symbols begins with. -/
def firstOf (g : Grammar) (seq : List Symbol) : FirstInfo := firstOfSeq g.first seq

/-- A warning with a list of names, left out when the list is empty. -/
def warnAbout (log : Log) (what : String) (names : List String) : Log :=
  if names.isEmpty then log else log.warning (what ++ ": " ++ String.intercalate ", " names)

/-- Checks productions and makes a grammar of them.  All nonterminals have to be reachable, and
the start symbol has to be productive; other nonterminals that are not, and terminals that are not
used, are reported. -/
def ofProductions (symbols : SymbolTable) (productions : List Production) (log : Log) :
    Except GrammarFault Grammar :=
  if productions.isEmpty then .error .noProductions
  else
    let count := symbols.numNonterminals
    let reached := reachable count productions
    match (List.range count).find? fun v => !reached.contains v with
    | some v => .error (.unreachable (symbols.symbolName (.nonterminal v)))
    | none =>
      let known := productive count productions
      let start := startSymbol productions
      if !known.contains start then
        .error (.unproductiveStart (symbols.symbolName (.nonterminal start)))
      else
        let unproductive := (List.range count).filter fun v => !known.contains v
        let log := warnAbout log "unproductive nonterminals"
          (unproductive.map fun v => symbols.symbolName (.nonterminal v))
        let used := usedTerminals productions
        let unused := symbols.properTerminals.filter fun (t, _) => !used.contains t
        let log := warnAbout log "unused tokens" (unused.map Prod.snd)
        .ok ⟨symbols, productions.toArray, firstTable count productions, log⟩

end Grammar

end FrontEnd
