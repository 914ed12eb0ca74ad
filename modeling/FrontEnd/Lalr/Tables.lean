import FrontEnd.Lalr.Lookahead
import FrontEnd.Parser.Action

/-!
# Parse tables of a grammar

An entry of the tables is decided by the move of its state over its terminal, if there is one, and
by the completed items that the terminal may follow.  Where they disagree there is a conflict,
which precedences may resolve.  Every conflict is reported.

## Main Definitions

* `Candidates` — what a state could do with a terminal
* `Grammar.resolveShiftReduce` — the choice between a shift and a reduction
* `Grammar.settle` — the entry for the candidates, with its messages
* `Settled` — the entries decided so far, with all decisions
* `Generated` — the automaton, the lookaheads, the tables and the log
* `Grammar.generate` — generates the tables

## Design Notes

A symbol whose number lies behind the terminals has no column of its own.  Its entry is the one
that lies as many places behind the start of the row, in the row of a later state, and it is
there when that state is settled.  So the states are settled one after the other, and an entry is
decided from the one that is there.
-/

namespace FrontEnd

/-- What a state could do with a terminal. -/
structure Candidates where
  /-- The state behind the terminal. -/
  shift : Option Nat
  /-- Whether the whole input has been read. -/
  accept : Bool
  /-- The productions that could be reduced, in ascending order. -/
  reductions : List Nat
deriving DecidableEq

/-- What comes before any reduction: the end, or else the shift, or else the entry that is there. -/
def Candidates.base (c : Candidates) (current : Action) : Action :=
  if c.accept then .accept
  else match c.shift with
    | some target => .shift target
    | none => current

/-- An entry of the tables with the conflicts that were resolved for it. -/
structure Decision where
  action : Action
  messages : List Log.Message
  /-- Conflicts between a shift and a reduction that precedence has not decided. -/
  shiftReduce : Nat
  /-- Conflicts between reductions. -/
  reduceReduce : Nat
deriving DecidableEq

namespace Grammar

/-- The terminals that may follow the completed items of a state, by production. -/
def completions (g : Grammar) (closure : ItemTable) : List (Nat × TokenSet) :=
  (closure.filter fun (i, _) => g.isComplete i).map fun (i, s) => (i.production, s)

/-- What a state could do with a terminal. -/
def candidates (g : Grammar) (a : ItemAutomaton) (completions : List (Nat × TokenSet))
    (state : Nat) (t : TokenId) : Candidates where
  shift := a.target? state (.terminal t)
  accept := t == TokenId.endOfInput && completions.any fun (p, _) => p == g.acceptProduction
  reductions :=
    Sorted.ofList (fun p q => decide (p < q))
      ((completions.filter fun (p, s) => p != g.acceptProduction && s.contains t).map Prod.fst)

/-- The name of a terminal. -/
def terminalName (g : Grammar) (t : TokenId) : String := g.symbols.symbolName (.terminal t)

/-- A production with the names of its symbols. -/
def productionName (g : Grammar) (p : Nat) : String :=
  match g.productions[p]? with
  | some production => production.display g.symbols.symbolName
  | none => "$accept"

/-- The choice between the shift of a terminal and a reduction, and whether precedence decides it.
The higher level wins; on one level the associativity of the terminal decides.  Otherwise the
terminal is shifted. -/
def resolveShiftReduce (g : Grammar) (t : TokenId) (target production : Nat) : Action × Bool :=
  match g.productions[production]?.bind Production.precedence, g.symbols.precedence? t with
  | some p, some q =>
    if p.level > q.level then (.reduce production, true)
    else if p.level < q.level then (.shift target, true)
    else
      match q.associativity with
      | .left => (.reduce production, true)
      | .right => (.shift target, true)
      | .nonAssociative => (.error .nonAssociative, true)
      | .unspecified => (.shift target, false)
  | _, _ => (.shift target, false)

/-- The message about several reductions, of which the first one is chosen. -/
def reduceReduceMessage (g : Grammar) (state : Nat) (t : TokenId) (p : Nat) (others : List Nat) :
    Log.Message :=
  ⟨.warning, "state " ++ toString state ++ ": reduce/reduce conflict on " ++ g.terminalName t ++
    ", reducing " ++ g.productionName p ++ " instead of " ++
    String.intercalate ", " (others.map g.productionName)⟩

/-- The message about a shift and a reduction. -/
def shiftReduceMessage (g : Grammar) (state : Nat) (t : TokenId) (p : Nat) (action : Action)
    (byPrecedence : Bool) : Log.Message :=
  ⟨if byPrecedence then .note else .warning,
    "state " ++ toString state ++ ": shift/reduce conflict on " ++ g.terminalName t ++ " with " ++
    g.productionName p ++ ", resolved as " ++ action.display ++
    (if byPrecedence then " by precedence" else "")⟩

/-- The message about a reduction in the place of the end. -/
def acceptReduceMessage (g : Grammar) (state : Nat) (t : TokenId) (p : Nat) : Log.Message :=
  ⟨.warning, "state " ++ toString state ++ ": accept/reduce conflict on " ++ g.terminalName t ++
    ", accepting instead of reducing " ++ g.productionName p⟩

/-- The entry for the candidates of a state and a terminal, where `current` is there already. -/
def settle (g : Grammar) (state : Nat) (t : TokenId) (current : Action) (c : Candidates) :
    Decision :=
  let base := c.base current
  match c.reductions with
  | [] => ⟨base, [], 0, 0⟩
  | p :: others =>
    let messages := if others.isEmpty then [] else [g.reduceReduceMessage state t p others]
    let reduceReduce := if others.isEmpty then 0 else 1
    match base with
    | .accept => ⟨.accept, messages ++ [g.acceptReduceMessage state t p], 0, reduceReduce⟩
    | .shift target =>
      let (action, byPrecedence) := g.resolveShiftReduce t target p
      ⟨action, messages ++ [g.shiftReduceMessage state t p action byPrecedence],
        if byPrecedence then 0 else 1, reduceReduce⟩
    | _ => ⟨.reduce p, messages, 0, reduceReduce⟩

end Grammar

/-- The entries decided so far. -/
structure Settled where
  actions : Grid Action
  /-- All decisions, the latest one first. -/
  decisions : List Decision

namespace Grammar

/-- The terminals with which a state could do something, in ascending order. -/
def concerned (a : ItemAutomaton) (completions : List (Nat × TokenSet)) (state : Nat) :
    TokenSet :=
  completions.foldl (fun found (_, s) => TokenSet.union found s)
    ((a.moves.getD state []).filterMap fun (s, _) => s.terminal?)

/-- Decides the entry of a terminal. -/
def settleEntry (g : Grammar) (a : ItemAutomaton) (completions : List (Nat × TokenSet))
    (state : Nat) (settled : Settled) (t : TokenId) : Settled :=
  let current := (settled.actions.cellAt? state t).getD Action.default
  let decision := g.settle state t current (g.candidates a completions state t)
  ⟨settled.actions.setAt state t decision.action, decision :: settled.decisions⟩

/-- Decides the entries of a state. -/
def settleState (g : Grammar) (a : ItemAutomaton) (l : Lookaheads) (settled : Settled)
    (state : Nat) : Settled :=
  let completions := g.completions (g.closureWithLookaheads (l.state state))
  (concerned a completions state).foldl (g.settleEntry a completions state) settled

/-- Decides all entries, one state after the other. -/
def settleAll (g : Grammar) (a : ItemAutomaton) (l : Lookaheads) : Settled :=
  (List.range a.size).foldl (g.settleState a l)
    ⟨Grid.filled a.size g.numTerminals Action.default, []⟩

/-- The states behind the nonterminals. -/
def gotosOf (g : Grammar) (a : ItemAutomaton) : Grid (Option Nat) :=
  Grid.ofFunction a.size g.numNonterminals fun state v => a.target? state (.nonterminal v)

/-- The messages about all entries, and the number of conflicts. -/
def logOf (numStates : Nat) (decisions : List Decision) : Log :=
  (Log.mk (decisions.flatMap Decision.messages)).note
    ("LALR(1) tables: " ++ toString numStates ++ " states, " ++
      toString (decisions.foldl (fun n d => n + d.shiftReduce) 0) ++ " shift/reduce conflicts, " ++
      toString (decisions.foldl (fun n d => n + d.reduceReduce) 0) ++ " reduce/reduce conflicts")

end Grammar

/-- What has been generated for a grammar. -/
structure Generated where
  automaton : ItemAutomaton
  lookaheads : Lookaheads
  tables : ParseTables
  log : Log

namespace Grammar

/-- Generates the tables of a grammar. -/
def generate (g : Grammar) : Generated :=
  let a := g.automaton
  let l := g.lookaheads a
  let settled := g.settleAll a l
  ⟨a, l, ⟨settled.actions, g.gotosOf a⟩, logOf a.size settled.decisions.reverse⟩

end Grammar

end FrontEnd
