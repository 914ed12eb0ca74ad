import FrontEnd.Grammar.Symbol
import FrontEnd.Sorted
import FrontEnd.Worklist

/-!
# First sets

For each nonterminal, the terminals that its strings can begin with, and whether it derives the
empty string.

## Main Definitions

* `TokenSet` — ascending lists of terminals
* `FirstInfo` — what is known of a nonterminal
* `firstOfSeq` — the same for a sequence of symbols
* `firstTable` — the least table that all productions agree with
-/

namespace FrontEnd

/-- A set of terminals as an ascending list. -/
abbrev TokenSet := List TokenId

namespace TokenSet

/-- The order of the terminals in a set. -/
def before (s t : TokenId) : Bool := s < t

/-- The terminals of either set. -/
def union (s t : TokenSet) : TokenSet := Sorted.union before s t

end TokenSet

/-- What is known of a nonterminal or a sequence of symbols. -/
structure FirstInfo where
  /-- The terminals that its strings can begin with. -/
  first : TokenSet
  /-- Whether it derives the empty string. -/
  nullable : Bool
deriving DecidableEq

namespace FirstInfo

/-- Nothing is known to be derived. -/
def nothing : FirstInfo := ⟨[], false⟩

/-- What is known from two sources. -/
def union (i j : FirstInfo) : FirstInfo :=
  ⟨TokenSet.union i.first j.first, i.nullable || j.nullable⟩

end FirstInfo

/-- What is known of each nonterminal. -/
abbrev FirstTable := Array FirstInfo

/-- What is known of a nonterminal. -/
def FirstTable.info (table : FirstTable) (v : Nat) : FirstInfo := table.getD v FirstInfo.nothing

/-- What a sequence of symbols begins with. -/
def firstOfSeq (table : FirstTable) : List Symbol → FirstInfo
  | [] => ⟨[], true⟩
  | .terminal t :: _ => ⟨[t], false⟩
  | .nonterminal v :: rest =>
    let i := table.info v
    if i.nullable then
      let j := firstOfSeq table rest
      ⟨TokenSet.union i.first j.first, j.nullable⟩
    else ⟨i.first, false⟩

/-- Adds what each production tells about its left-hand side. -/
def extendFirst (productions : List Production) (table : FirstTable) : FirstTable :=
  productions.foldl
    (fun table p => table.modify p.lhs fun i => i.union (firstOfSeq table p.rhs)) table

/-- Number of symbols in all right-hand sides. -/
def totalLength (productions : List Production) : Nat :=
  (productions.flatMap Production.rhs).length

/-- The least table that all productions agree with.  Every round but the last one adds a terminal
of some right-hand side, or that it is nullable, to a nonterminal. -/
def firstTable (numNonterminals : Nat) (productions : List Production) : FirstTable :=
  iterateUntilStable (extendFirst productions)
    (numNonterminals * (totalLength productions + 1) + 1)
    (Array.replicate numNonterminals FirstInfo.nothing)

end FrontEnd
