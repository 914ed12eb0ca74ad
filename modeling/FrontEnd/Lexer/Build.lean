import FrontEnd.Lexer.Basic
import FrontEnd.Lexer.Definition
import FrontEnd.Nfa.Until

/-!
# Building lexers

The patterns and states of the rules are resolved first.  Then all rules are put into one
automaton with two start states for each lexer state, one for places inside a line and one for the
starts of lines, and the automaton is made deterministic.

## Main Definitions

* `ResolvedRule` — a rule whose patterns and states are known
* `LexerDefinition.resolve` — resolves a rule
* `Nfa.ofRules` — the automaton of all rules
* `LexerDefinition.diagnostics` — what a build reports
* `LexerDefinition.build` — the lexer
-/

namespace FrontEnd

/-- A rule whose patterns are read and whose states are known by their handles. -/
structure ResolvedRule where
  start : Regex
  stop : Option Regex
  states : List Nat
  change : StateChange

namespace ResolvedRule

/-- Whether the rule matches only at the start of a line. -/
def atLineStart (r : ResolvedRule) : Bool := r.start.atLineStart

/-- Whether the rule matches only up to the end of a line. -/
def atLineEnd (r : ResolvedRule) : Bool :=
  match r.stop with
  | some stop => stop.atLineEnd
  | none => r.start.atLineEnd

end ResolvedRule

namespace LexerDefinition

/-- The handle that a reference of a rule stands for. -/
def resolveState (d : LexerDefinition) (rule : Nat) (state : StateRef) : Except LexerFault Nat :=
  match state with
  | .handle h =>
    if h < d.states.size then .ok h else .error (.unknownState rule ("#" ++ toString h))
  | .name name =>
    match d.stateId? name with
    | some h => .ok h
    | none => .error (.unknownState rule name)

/-- The handles that some references of a rule stand for, without repetitions. -/
def resolveStates (d : LexerDefinition) (rule : Nat) (known : List Nat) :
    List StateRef → Except LexerFault (List Nat)
  | [] => .ok known
  | state :: rest =>
    match d.resolveState rule state with
    | .error e => .error e
    | .ok h =>
      d.resolveStates rule (if known.contains h then known else known ++ [h]) rest

/-- The lexer states of a scope. -/
def resolveScope (d : LexerDefinition) (rule : Nat) : RuleScope → Except LexerFault (List Nat)
  | .all => .ok (List.range (narrow16 d.states.size))
  | .states states => d.resolveStates rule [] states

/-- The state change of a destination. -/
def resolveDestination (d : LexerDefinition) (rule : Nat) :
    Destination → Except LexerFault StateChange
  | .stay => .ok .stay
  | .goto state => (d.resolveState rule state).map .goto
  | .push state => (d.resolveState rule state).map .push
  | .pop => .ok .pop

/-- Reads a pattern of a rule. -/
def readPattern (d : LexerDefinition) (rule : Nat) (pattern : String) : Except LexerFault Regex :=
  match Regex.parse d.flags d.named pattern with
  | .ok r => .ok r
  | .error e => .error (.pattern rule e)

/-- Reads the end pattern of a rule, if it has one.  A match goes on behind the start pattern, so
that one must not end with an anchor and the end pattern must not begin with one. -/
def readStop (d : LexerDefinition) (rule : Nat) (pattern : String) (start : Regex) :
    Option String → Except LexerFault (Option Regex)
  | none => .ok none
  | some stop =>
    if start.atLineEnd then
      .error (.pattern rule ⟨(bytesOf pattern).length - 1, .misplacedAnchor 0x24⟩)
    else
      match d.readPattern rule stop with
      | .error e => .error e
      | .ok r =>
        if r.atLineStart then .error (.pattern rule ⟨0, .misplacedAnchor 0x5e⟩) else .ok (some r)

/-- Whether a rule can match the empty string. -/
def matchesEmpty (start : Regex) (stop : Option Regex) : Bool :=
  start.nullable && match stop with
    | some r => r.nullable
    | none => true

/-- Resolves the rule with a number. -/
def resolve (d : LexerDefinition) (id : Nat) (rule : Rule) : Except LexerFault ResolvedRule :=
  match d.readPattern id rule.pattern with
  | .error e => .error e
  | .ok start =>
    match d.readStop id rule.pattern start rule.stop with
    | .error e => .error e
    | .ok stop =>
      if matchesEmpty start stop && !d.flags.matchEmpty then .error (.matchesEmpty id)
      else
        match d.resolveScope id rule.scope with
        | .error e => .error e
        | .ok states =>
          match d.resolveDestination id rule.destination with
          | .error e => .error e
          | .ok change => .ok ⟨start, stop, states, change⟩

/-- Resolves rules whose numbers begin with `id`. -/
def resolveFrom (d : LexerDefinition) (id : Nat) :
    List Rule → Except LexerFault (List ResolvedRule)
  | [] => .ok []
  | rule :: rules =>
    match d.resolve id rule with
    | .error e => .error e
    | .ok r => (d.resolveFrom (id + 1) rules).map (r :: ·)

/-- All rules of the lexer: the declared ones, then the one that skips blanks, if it is asked
for. -/
def allRules (d : LexerDefinition) : List Rule :=
  if d.flags.skipBlanks then d.rules ++ [Rule.blanks] else d.rules

end LexerDefinition

namespace Nfa

/-- The start state of a lexer state inside a line. -/
def insideLine (state : Nat) : Nat := 2 * state

/-- The start state of a lexer state at the start of a line. -/
def lineStart (state : Nat) : Nat := 2 * state + 1

/-- The automaton with the start states of some lexer states. -/
def ofStates (count : Nat) : Nfa := ⟨Array.replicate (2 * count) State.bare⟩

/-- Adds the part of a rule, without edges that lead to it. -/
def addRuleBody (nfa : Nfa) (r : ResolvedRule) : Nfa × Fragment :=
  let (nfa, f) := addNode r.start.node nfa
  match r.stop with
  | none => (nfa, f)
  | some stop =>
    let (nfa, rest) := nfa.addUntil stop.node
    (nfa.addSilent f.stop rest.start, ⟨f.start, rest.stop⟩)

/-- Makes a part start in a lexer state: at the start of a line, and inside a line unless the rule
is anchored. -/
def enter (f : Fragment) (anchored : Bool) (nfa : Nfa) (state : Nat) : Nfa :=
  let nfa := if anchored then nfa else nfa.addSilent (insideLine state) f.start
  nfa.addSilent (lineStart state) f.start

/-- Adds the rule with a number. -/
def addRule (nfa : Nfa) (id : Nat) (r : ResolvedRule) : Nfa :=
  let (nfa, f) := nfa.addRuleBody r
  let nfa := nfa.setAccept f.stop ⟨id, r.atLineEnd⟩
  r.states.foldl (enter f r.atLineStart) nfa

/-- Adds rules whose numbers begin with `id`. -/
def addRules (nfa : Nfa) (id : Nat) : List ResolvedRule → Nfa
  | [] => nfa
  | r :: rules => (nfa.addRule id r).addRules (id + 1) rules

/-- The automaton of rules for a number of lexer states. -/
def ofRules (count : Nat) (rules : List ResolvedRule) : Nfa := (ofStates count).addRules 0 rules

end Nfa

namespace LexerDefinition

/-- Warnings for the declared rules that no state of the automaton accepts. -/
def shadowed (accepted : List Nat) (log : Log) : List (Rule × Nat) → Log
  | [] => log
  | (rule, id) :: rest =>
    let log :=
      if accepted.contains id then log
      else log.warning ("rule " ++ toString id ++ " ('" ++ rule.pattern ++
        "') is never matched: it is shadowed by earlier rules")
    shadowed accepted log rest

/-- Whether a rule leads to a lexer state. -/
def enters (state : Nat) (r : ResolvedRule) : Bool :=
  match r.change with
  | .goto s => s == state
  | .push s => s == state
  | _ => false

/-- Warnings for the lexer states that no rule leads to. -/
def neverEntered (resolved : List ResolvedRule) (log : Log) : List (String × Nat) → Log
  | [] => log
  | (name, state) :: rest =>
    let log :=
      if resolved.any (enters state) then log
      else log.warning ("lexer state '" ++ name ++ "' is never entered")
    neverEntered resolved log rest

/-- What a build reports. -/
def diagnostics (d : LexerDefinition) (resolved : List ResolvedRule) (dfa : Dfa) : Log :=
  let log :=
    if resolved.isEmpty then
      Log.empty.warning "no lexer rules: every byte of the input will be an invalid token"
    else Log.empty
  let log := shadowed dfa.acceptedRules log d.rules.zipIdx
  let log := neverEntered resolved log (d.states.toList.zipIdx.drop 1)
  log.note ("lexer: " ++ toString resolved.length ++ " rules, " ++ toString d.states.size ++
    " lexer states, " ++ toString dfa.size ++ " DFA states, " ++ toString dfa.groups ++
    " byte groups")

/-- The start states of all lexer states, two for each. -/
def startStates (d : LexerDefinition) : List Nat := List.range (2 * d.states.size)

/-- The lexer of rules that are resolved. -/
def assemble (d : LexerDefinition) (resolved : List ResolvedRule) : Lexer :=
  let nfa := Nfa.ofRules d.states.size resolved
  let groups := ByteGroups.ofSets nfa.moveSets
  let dfa := Dfa.build nfa groups d.startStates
  { groups := groups
    dfa := dfa
    entries := (List.range d.states.size).map fun state =>
      (dfa.initial.getD (Nfa.insideLine state) dfa.size,
        dfa.initial.getD (Nfa.lineStart state) dfa.size)
    terminals := (d.allRules.zip resolved).map fun (rule, r) =>
      ⟨rule.token, rule.userData, r.change⟩
    stateNames := d.states
    flags := d.flags
    log := d.diagnostics resolved dfa }

/-- Builds the lexer.  The first rule that can not be resolved makes the build fail. -/
def build (d : LexerDefinition) : Except LexerFault Lexer :=
  (d.resolveFrom 0 d.allRules).map d.assemble

end LexerDefinition

end FrontEnd
