import FrontEnd.Parser.Run
import FrontEnd.Proofs.Lalr.Tables
import FrontEnd.Proofs.Parser.Tree

/-!
# Soundness of parsing

Whatever conflicts there were, the states of a run are a path of the automaton that spells the roots
of parse trees, and the values are those of the trees.  So no step can go wrong, and what is
accepted has a parse tree.

## Main Definitions

* `Parser.Reaches` — configurations that follow each other in a run
* `Grammar.Stacks` — the stacks of a configuration hold parse trees of what has been read
* `Parser.Proceeds` — an action can be carried out in a configuration

## Main Statements

* `Grammar.Stacks.step` — a step keeps the stacks, or ends with one parse tree
* `GrammarDefinition.sound` — every run is sound

## Design Notes

`Grammar.Stacks` is the one invariant of a run.  It is initial, and a step keeps it for each kind of
action, since the action is justified by an item of the state on top: behind a complete item the
stacks hold its right-hand side, so that a reduction finds the states, the values and the next state
that it needs.  Conflicts play no part, because an action that has won one is justified, too.
-/

namespace FrontEnd

variable {α : Type}

/-! ### Steps

What a step does for each kind of action.  These are the only lemmas that open the definition of a
step. -/

namespace Parser

/-- Configurations that follow each other in a run. -/
def Reaches (p : Parser) (s : Semantics α) : Configuration α → Configuration α → Prop :=
  Relation.ReflTransGen fun c c' => p.step s c = .running c'

/-- An action can be carried out in a configuration: a token is there to be shifted, the stacks are
high enough for a reduction and there is a state behind its left-hand side, and the input is
accepted with exactly one value. -/
def Proceeds (p : Parser) (c : Configuration α) : Action → Prop
  | .shift _ => c.input ≠ []
  | .reduce q => ∃ production target, p.production? q = some production ∧
    production.rhs.length ≤ c.values.length ∧ production.rhs.length < c.states.length ∧
      p.goto ((c.states.drop production.rhs.length).headD 0) production.lhs = .goto target
  | .accept => ∃ value, c.values = [value]
  | .goto _ => False
  | .error _ => True

variable {p : Parser} {s : Semantics α} {c : Configuration α}

/-- A shift puts the token on the stacks and goes on behind it. -/
theorem step_shift {target : Nat} (h : p.action c.top c.token.id = .shift target) :
    p.step s c = .running ⟨target :: c.states, s.shift c.token :: c.values, c.input.tail,
      c.token.stop, .shift c.token :: c.events⟩ := by
  unfold step
  dsimp only
  rw [h]

/-- A reduction replaces what belongs to the right-hand side by the left-hand side and keeps the
input. -/
theorem step_reduce {q target : Nat} {production : Production}
    (h : p.action c.top c.token.id = .reduce q) (hq : p.productions[q]? = some production)
    (hgoto : p.goto ((c.states.drop production.rhs.length).headD 0) production.lhs = .goto target) :
    p.step s c = .running ⟨target :: c.states.drop production.rhs.length,
      s.reduce q production.lhs (c.values.take production.rhs.length).reverse ::
        c.values.drop production.rhs.length, c.input, c.position,
      .reduce q production.lhs production.rhs.length :: c.events⟩ := by
  have hrule : p.productions.getD q ⟨0, [], none⟩ = production := by
    rw [Array.getD_eq_getD_getElem?, hq, Option.getD_some]
  unfold step
  dsimp only
  rw [h]
  unfold reduceStep
  dsimp only
  rw [hrule, hgoto]

/-- An accept ends the run with the latest value. -/
theorem step_accept {value : α} {values : List α} (h : p.action c.top c.token.id = .accept)
    (hvalues : c.values = value :: values) :
    p.step s c = .accepted value (.accept :: c.events) := by
  unfold step
  dsimp only
  rw [h, hvalues]

/-- Where there is no action, the next token is refused. -/
theorem step_error {fault : ParseFault} (h : p.action c.top c.token.id = .error fault) :
    p.step s c = .refused (p.refusal fault c.top c.token) c.events := by
  unfold step
  dsimp only
  rw [h]

end Parser

/-! ### The stacks of a run

The invariant of a run.  Symbols, states and values stand one above the other, with the latest of
them on top. -/

namespace Grammar

open ParseTree

variable {g : Grammar} {s : Semantics α} {input : List Token} {symbols : List Symbol}
  {trees : List ParseTree} {c : Configuration α}

/-- The stacks of a configuration: the states are a path that spells some symbols, the values and
the events are those of parse trees of the symbols, and the leaves of the trees are what has been
read. -/
structure Stacks (g : Grammar) (s : Semantics α) (input : List Token) (symbols : List Symbol)
    (trees : List ParseTree) (c : Configuration α) : Prop where
  path : g.automaton.Path c.states symbols.reverse
  parses : g.Parses symbols trees
  values : c.values = (evalAll s trees).reverse
  events : c.events.reverse = eventsAll trees
  input : input = tokensAll trees ++ c.input
  ids : ∀ t ∈ tokensAll trees, t.id ≠ TokenId.endOfInput

/-- Nothing has been read at the start. -/
theorem stacks_start (g : Grammar) (s : Semantics α) (input : List Token) :
    g.Stacks s input [] [] (Configuration.start α input) :=
  ⟨.bottom, .nil, rfl, rfl, rfl, fun _ h => by cases h⟩

/-- There is always a state on top. -/
theorem Stacks.exists_states (h : g.Stacks s input symbols trees c) :
    ∃ rest, c.states = c.top :: rest := by
  have hpath := h.path
  unfold Configuration.top
  cases hstates : c.states with
  | nil =>
    rw [hstates] at hpath
    cases hpath
  | cons state rest => exact ⟨rest, rfl⟩

/-- The state on top is one of the automaton. -/
theorem Stacks.top_lt (h : g.Stacks s input symbols trees c) : c.top < g.automaton.size := by
  obtain ⟨rest, hstates⟩ := h.exists_states
  exact g.isAutomaton_automaton.lt_size_of_path (hstates ▸ h.path)

/-- The action for the next token is justified in the state on top. -/
theorem Stacks.justified (h : g.Stacks s input symbols trees c) (hg : g.WellFormed) :
    g.Justified g.automaton (g.lookaheads g.automaton) c.top c.token.id
      (g.parser.action c.top c.token.id) := justified_action hg h.top_lt c.token.id

/-- The tokens behind the end are not shifted. -/
theorem Stacks.exists_input (h : g.Stacks s input symbols trees c) (hg : g.WellFormed)
    {target : Nat} (haction : g.parser.action c.top c.token.id = .shift target) :
    c.input = c.token :: c.input.tail ∧ c.token.id ≠ TokenId.endOfInput := by
  have hjustified := h.justified hg
  rw [haction] at hjustified
  have hid := id_ne_of_target? hg hjustified
  refine ⟨?_, hid⟩
  unfold Configuration.token at hid ⊢
  cases hinput : c.input with
  | nil =>
    rw [hinput] at hid
    exact absurd rfl hid
  | cons token rest => rfl

/-- **A shift** puts the leaf of the token on the stacks. -/
theorem Stacks.shift (h : g.Stacks s input symbols trees c) (hg : g.WellFormed) {target : Nat}
    (haction : g.parser.action c.top c.token.id = .shift target) :
    g.Stacks s input (symbols ++ [.terminal c.token.id]) (trees ++ [.leaf c.token])
      ⟨target :: c.states, s.shift c.token :: c.values, c.input.tail, c.token.stop,
        .shift c.token :: c.events⟩ := by
  obtain ⟨hinput, hid⟩ := h.exists_input hg haction
  obtain ⟨rest, hstates⟩ := h.exists_states
  have hjustified := h.justified hg
  rw [haction] at hjustified
  refine ⟨?_, h.parses.append (.leaf c.token .nil), ?_, ?_, ?_, ?_⟩
  · rw [List.reverse_append]
    have hpath := h.path
    rw [hstates] at hpath ⊢
    exact hpath.push hjustified
  · rw [evalAll_append, List.reverse_append, h.values]
    rfl
  · rw [eventsAll_append, List.reverse_cons, h.events]
    rfl
  · rw [tokensAll_append, List.append_assoc, h.input]
    exact congrArg (tokensAll trees ++ ·) hinput
  · intro t ht
    rw [tokensAll_append] at ht
    rcases List.mem_append.1 ht with ht | ht
    · exact h.ids t ht
    · have heq : t = c.token := by simpa [tokensAll, tokens] using ht
      exact heq ▸ hid

/-- What a reduction finds: the stacks end with the right-hand side and its parse trees, and below
them there is a move for the left-hand side. -/
theorem Stacks.exists_reduction (h : g.Stacks s input symbols trees c) (hg : g.WellFormed) {q : Nat}
    (haction : g.parser.action c.top c.token.id = .reduce q) :
    ∃ production front children below rest target, g.productions[q]? = some production ∧
      symbols = front ++ production.rhs ∧ c.states.drop production.rhs.length = below :: rest ∧
      g.automaton.Path (below :: rest) front.reverse ∧
      g.automaton.target? below (.nonterminal production.lhs) = some target ∧
      ∃ behind, trees = behind ++ children ∧ g.Parses front behind ∧
        g.Parses production.rhs children := by
  have ha := g.isAutomaton_automaton
  obtain ⟨states, hstates⟩ := h.exists_states
  have hpath := h.path
  rw [hstates] at hpath
  have hjustified := h.justified hg
  rw [haction] at hjustified
  obtain ⟨hne, i, hfollows, hcomplete, rfl⟩ := hjustified
  have hi : i ∈ g.closure (g.automaton.kernel c.top) :=
    (isLookaheads hg).isOver.map_fst c.top ▸ hfollows.mem_closure
  have hlt : i.production < g.productions.size :=
    Nat.lt_of_le_of_ne (mem_items.1 (ha.mem_items_of_mem_closure hi)).1 hne
  have hq : g.productions[i.production]? = some g.productions[i.production] :=
    Array.getElem?_eq_getElem hlt
  -- the right-hand side is taken back from the path, and its trees from the others
  obtain ⟨below, rest, symbols', hdrop, hsymbols, hbelow, hstart⟩ :=
    ha.unwind_complete hpath hi hcomplete
  rw [rhsOf_of_getElem? hq] at hdrop hsymbols
  obtain ⟨target, htarget⟩ := ha.exists_goto (ha.lt_size_of_path hbelow) hstart hq
  have hsplit : symbols = symbols'.reverse ++ g.productions[i.production].rhs := by
    rw [← List.reverse_reverse symbols, hsymbols, List.reverse_append, List.reverse_reverse]
  obtain ⟨behind, children, htrees, hfront, hchildren⟩ := (hsplit ▸ h.parses).split
  refine ⟨_, symbols'.reverse, children, below, rest, target, hq, hsplit, hstates ▸ hdrop, ?_,
    htarget, behind, htrees, hfront, hchildren⟩
  rw [List.reverse_reverse]
  exact hbelow

/-- **A reduction** makes a node of the parse trees of its right-hand side.  It replaces the
right-hand side, and reads nothing. -/
theorem Stacks.reduce (h : g.Stacks s input symbols trees c) (hg : g.WellFormed) {q : Nat}
    (haction : g.parser.action c.top c.token.id = .reduce q) :
    g.parser.Proceeds c (.reduce q) ∧ ∃ c' production front behind children,
      g.productions[q]? = some production ∧ symbols = front ++ production.rhs ∧
      trees = behind ++ children ∧ children.length = production.rhs.length ∧
      g.parser.step s c = .running c' ∧ c'.input = c.input ∧ c'.position = c.position ∧
      g.Stacks s input (front ++ [.nonterminal production.lhs])
        (behind ++ [.node q production.lhs children]) c' := by
  obtain ⟨production, front, children, below, rest, target, hq, rfl, hdrop, hpath, htarget, behind,
    rfl, hbehind, hchildren⟩ := h.exists_reduction hg haction
  have hlength := hchildren.length_eq
  have hbelow : below < g.automaton.size := g.isAutomaton_automaton.lt_size_of_path hpath
  have hgoto : g.parser.goto ((c.states.drop production.rhs.length).headD 0) production.lhs =
      .goto target := by
    rw [hdrop]
    exact goto_generate hbelow (hg.lhs_lt _ (Array.mem_of_getElem? hq)) htarget
  have hvalues : c.values = (evalAll s children).reverse ++ (evalAll s behind).reverse := by
    rw [h.values, evalAll_append, List.reverse_append]
  have hchildrenLength : (evalAll s children).reverse.length = production.rhs.length := by
    rw [List.length_reverse, length_evalAll, hlength]
  refine ⟨⟨production, target, hq, ?_, ?_, hgoto⟩, _, production, front, behind, children, hq, rfl,
    rfl, hlength, Parser.step_reduce haction hq hgoto, rfl, rfl, ?_⟩
  · rw [hvalues, List.length_append, hchildrenLength]
    exact Nat.le_add_right _ _
  · apply Nat.lt_of_not_le
    intro hle
    rw [List.drop_of_length_le hle] at hdrop
    cases hdrop
  · -- the values of the children are replaced by the value of the node
    rw [hdrop, hvalues, List.take_left' hchildrenLength, List.drop_left' hchildrenLength,
      List.reverse_reverse]
    refine ⟨?_, hbehind.append (.node hq hchildren .nil), ?_, ?_, ?_, ?_⟩
    · rw [List.reverse_append]
      exact hpath.push htarget
    · rw [evalAll_append, List.reverse_append]
      rfl
    · rw [List.reverse_cons, h.events, eventsAll_append, eventsAll_append, List.append_assoc,
        ← hlength]
      simp [eventsAll, ParseTree.events]
    · rw [h.input, tokensAll_append, tokensAll_append]
      simp [tokensAll, tokens]
    · intro t ht
      apply h.ids t
      rw [tokensAll_append] at ht ⊢
      simpa [tokensAll, tokens] using ht

/-- **The input is accepted** with one parse tree of the start symbol, in front of the end. -/
theorem Stacks.accept (h : g.Stacks s input symbols trees c) (hg : g.WellFormed)
    (haction : g.parser.action c.top c.token.id = .accept) :
    ∃ tree, g.Stacks s input [.nonterminal g.start] [tree] c ∧ c.values = [tree.eval s] ∧
      c.token.id = TokenId.endOfInput := by
  obtain ⟨states, hstates⟩ := h.exists_states
  have hpath := h.path
  rw [hstates] at hpath
  have hjustified := h.justified hg
  rw [haction] at hjustified
  obtain ⟨hid, i, hi, hcomplete, haccept⟩ := hjustified
  have hreverse := g.isAutomaton_automaton.unwind_accept hpath hi hcomplete haccept
  obtain rfl : symbols = [.nonterminal g.start] := by
    rw [← List.reverse_reverse symbols, hreverse]
    rfl
  obtain ⟨tree, rfl⟩ := List.length_eq_one_iff.1 h.parses.length_eq
  exact ⟨tree, h, h.values, hid⟩

/-- Every action that is met can be carried out. -/
theorem Stacks.proceeds (h : g.Stacks s input symbols trees c) (hg : g.WellFormed) :
    g.parser.Proceeds c (g.parser.action c.top c.token.id) := by
  cases haction : g.parser.action c.top c.token.id with
  | shift target =>
    obtain ⟨hinput, -⟩ := h.exists_input hg haction
    show c.input ≠ []
    rw [hinput]
    exact List.cons_ne_nil _ _
  | reduce q => exact (h.reduce hg haction).1
  | accept =>
    obtain ⟨tree, -, hvalues, -⟩ := h.accept hg haction
    exact ⟨tree.eval s, hvalues⟩
  | goto target =>
    have hjustified := h.justified hg
    rw [haction] at hjustified
    exact hjustified
  | error fault => trivial

/-- What a step leads to: further stacks, or one parse tree. -/
def Stacks.Leads (g : Grammar) (s : Semantics α) (input : List Token) (c : Configuration α) :
    StepResult α → Prop
  | .running c' => ∃ symbols trees, g.Stacks s input symbols trees c'
  | .accepted value events => ∃ tree, g.Stacks s input [.nonterminal g.start] [tree] c ∧
    value = tree.eval s ∧ events = .accept :: c.events ∧ c.token.id = TokenId.endOfInput
  | .refused _ _ => True

/-- **A step keeps the stacks**, or it ends with one parse tree. -/
theorem Stacks.step (h : g.Stacks s input symbols trees c) (hg : g.WellFormed) :
    Stacks.Leads g s input c (g.parser.step s c) := by
  cases haction : g.parser.action c.top c.token.id with
  | shift target =>
    rw [Parser.step_shift haction]
    exact ⟨_, _, h.shift hg haction⟩
  | reduce q =>
    obtain ⟨-, c', production, front, behind, children, -, -, -, -, hstep, -, -, h'⟩ :=
      h.reduce hg haction
    rw [hstep]
    exact ⟨_, _, h'⟩
  | accept =>
    obtain ⟨tree, h', hvalues, hid⟩ := h.accept hg haction
    rw [Parser.step_accept haction hvalues]
    exact ⟨tree, h', rfl, rfl, hid⟩
  | goto target =>
    have hproceeds := h.proceeds hg
    rw [haction] at hproceeds
    exact hproceeds.elim
  | error fault =>
    rw [Parser.step_error haction]
    trivial

/-- All configurations of a run have such stacks.  The induction is on the steps. -/
theorem exists_stacks_of_reaches (hg : g.WellFormed)
    (h : g.parser.Reaches s (Configuration.start α input) c) :
    ∃ symbols trees, g.Stacks s input symbols trees c := by
  induction h with
  | refl => exact ⟨[], [], g.stacks_start s input⟩
  | tail _ hstep ih =>
    obtain ⟨symbols, trees, h⟩ := ih
    have hleads := h.step hg
    rw [hstep] at hleads
    exact hleads

/-- In front of the end of the input, the leaves are all that is in front of the end. -/
theorem Stacks.tokensAll_eq (h : g.Stacks s input symbols trees c)
    (hid : c.token.id = TokenId.endOfInput) :
    tokensAll trees = input.takeWhile fun t => !t.isEndOfInput := by
  have hread : ∀ t ∈ tokensAll trees, (!t.isEndOfInput) = true := by
    intro t ht
    simpa [Token.isEndOfInput] using h.ids t ht
  have hrest : c.input.takeWhile (fun t => !t.isEndOfInput) = [] := by
    unfold Configuration.token at hid
    cases hinput : c.input with
    | nil => rfl
    | cons token rest =>
      rw [hinput] at hid
      have hend : (!token.isEndOfInput) = false := by
        rw [Token.isEndOfInput, Bool.not_eq_false', beq_iff_eq]
        exact hid
      rw [List.takeWhile_cons, hend]
      rfl
  rw [h.input, List.takeWhile_append_of_pos hread, hrest, List.append_nil]

/-- **What a run accepts has a parse tree**, whose leaves are the tokens in front of the end. -/
theorem Stacks.run (hg : g.WellFormed) {bound : Nat} {value : α} {events : List Event}
    (h : g.Stacks s input symbols trees c)
    (hrun : g.parser.run s bound c = some ⟨.ok value, events⟩) :
    ∃ tree, g.Parses [.nonterminal g.start] [tree] ∧
      tree.tokens = input.takeWhile (fun t => !t.isEndOfInput) ∧ value = tree.eval s ∧
      events = tree.events ++ [.accept] := by
  induction bound generalizing symbols trees c with
  | zero => cases hrun
  | succ bound ih =>
    have hleads := h.step hg
    unfold Parser.run at hrun
    cases hstep : g.parser.step s c with
    | running c' =>
      rw [hstep] at hrun hleads
      obtain ⟨symbols', trees', h'⟩ := hleads
      exact ih h' hrun
    | accepted value' events' =>
      rw [hstep] at hrun hleads
      obtain ⟨tree, h', rfl, rfl, hid⟩ := hleads
      simp only [Option.some.injEq, Run.mk.injEq, Except.ok.injEq] at hrun
      obtain ⟨rfl, rfl⟩ := hrun
      refine ⟨tree, h'.parses, ?_, rfl, ?_⟩
      · have htokens := h'.tokensAll_eq hid
        rw [tokensAll, tokensAll, List.append_nil] at htokens
        exact htokens
      · rw [List.reverse_cons, h'.events, eventsAll, eventsAll, List.append_nil]
    | refused e events' =>
      rw [hstep] at hrun
      simp at hrun

end Grammar

/-- A parser is built from the grammar that the definition resolves to. -/
theorem GrammarDefinition.exists_of_buildParser {d : GrammarDefinition} {p : Parser}
    (h : d.buildParser = .ok p) : ∃ g, d.resolve = .ok g ∧ p = g.parser := by
  obtain ⟨g, hg, rfl⟩ := exists_of_map_eq_ok h
  exact ⟨g, hg, rfl⟩

/-- A parser that has been built is the one of the resolved grammar. -/
theorem GrammarDefinition.eq_parser_of_buildParser {d : GrammarDefinition} {p : Parser}
    {g : Grammar} (h : d.buildParser = .ok p) (hresolve : d.resolve = .ok g) : p = g.parser := by
  obtain ⟨g', hg', rfl⟩ := exists_of_buildParser h
  rw [Except.ok.inj (hg'.symm.trans hresolve)]

/-- **Soundness of parsing.**  Whatever conflicts there were, each configuration of a run has stacks
that are a path of the automaton and parse trees of the symbols that it spells, and its action can
be carried out.  What is accepted is a sentence of the grammar, with the value of a parse tree; the
tokens shifted are its leaves, and the reductions, read backwards, are a rightmost derivation of it.
-/
theorem GrammarDefinition.sound {d : GrammarDefinition} {p : Parser} (hd : d.Reachable)
    (h : d.buildParser = .ok p) (s : Semantics α) (input : List Token) :
    ∃ g, d.resolve = .ok g ∧ p = g.parser ∧
      (∀ c, p.Reaches s (Configuration.start α input) c →
        (∃ symbols trees, g.Stacks s input symbols trees c) ∧
          p.Proceeds c (p.action c.top c.token.id)) ∧
      ∀ bound value events,
        p.run s bound (Configuration.start α input) = some ⟨.ok value, events⟩ →
          let read := input.takeWhile fun t => !t.isEndOfInput
          ∃ tree, g.Parses [.nonterminal g.start] [tree] ∧ tree.tokens = read ∧
            value = tree.eval s ∧ events = tree.events ++ [.accept] ∧
            g.Derives [.nonterminal g.start] (Grammar.sentenceOf read) ∧
            events.filterMap Event.shifted? = read ∧
            g.Rightmost [.nonterminal g.start] (events.filterMap Event.reduced?).reverse
              (Grammar.sentenceOf read) := by
  obtain ⟨g, hresolve, rfl⟩ := exists_of_buildParser h
  have hg := d.wellFormed_of_resolve hd hresolve
  refine ⟨g, hresolve, rfl, ?_, ?_⟩
  · intro c hc
    obtain ⟨symbols, trees, hstacks⟩ := Grammar.exists_stacks_of_reaches hg hc
    exact ⟨⟨symbols, trees, hstacks⟩, hstacks.proceeds hg⟩
  · intro bound value events hrun read
    obtain ⟨tree, hparses, htokens, hvalue, hevents⟩ := (g.stacks_start s input).run hg hrun
    have heventsAll : ParseTree.eventsAll [tree] = tree.events := List.append_nil _
    have htokensAll : ParseTree.tokensAll [tree] = read := (List.append_nil _).trans htokens
    have hshifted := hparses.shifted
    have hrightmost := hparses.rightmost
    have hderives := hparses.derives
    rw [heventsAll, htokensAll] at hshifted hrightmost
    rw [htokensAll] at hderives
    refine ⟨tree, hparses, htokens, hvalue, hevents, hderives, ?_, ?_⟩
    · rw [hevents, List.filterMap_append, hshifted]
      exact List.append_nil _
    · have hreduced : events.filterMap Event.reduced? = tree.events.filterMap Event.reduced? := by
        rw [hevents, List.filterMap_append]
        exact List.append_nil _
      rw [hreduced]
      exact hrightmost

/-- Sums of numbers, where nothing tells which of two sums is made first. -/
def sums : GrammarDefinition :=
  ((GrammarDefinition.empty.declareTokens "plus num").2.addProductions "sum"
    "sum plus sum | num").2

/-- The sum of two numbers. -/
def twoNumbers : List Token :=
  [⟨2, 4, 0, 1, 0, []⟩, ⟨1, 0, 1, 2, 0, []⟩, ⟨2, 3, 2, 3, 0, []⟩]

/-- Numbers stand for themselves, and all else is added up. -/
def adding : Semantics Nat := ⟨Token.userData, fun _ _ values => values.sum⟩

/-- The parser of sums adds two numbers. -/
theorem GrammarDefinition.sound_sums :
    ∃ g tree, sums.resolve = .ok g ∧ g.Parses [.nonterminal g.start] [tree] ∧
      tree.tokens = twoNumbers ∧ tree.eval adding = 7 ∧
      g.Rightmost [.nonterminal g.start] [0, 1, 1] (Grammar.sentenceOf twoNumbers) := by
  have hrun : sums.buildParser.map (fun p =>
      (p.run adding 20 (Configuration.start Nat twoNumbers)).map fun run =>
        (run.result.toOption, run.events.filterMap Event.reduced?)) =
      .ok (some (some 7, [1, 1, 0])) := by decide +kernel
  obtain ⟨p, hbuild, hrun⟩ := exists_of_map_eq_ok hrun
  obtain ⟨⟨result, events⟩, hrun, hends⟩ := Option.map_eq_some_iff.1 hrun
  obtain ⟨hresult, hreduced⟩ := Prod.mk.inj hends
  cases result with
  | error e => cases hresult
  | ok value =>
    obtain rfl := Option.some.inj hresult
    obtain ⟨g, hresolve, -, -, haccepted⟩ :=
      sound (.productions _ _ (.tokens _ .empty)) hbuild adding twoNumbers
    obtain ⟨tree, hparses, htokens, hvalue, -, -, -, hrightmost⟩ := haccepted 20 _ events hrun
    rw [hreduced] at hrightmost
    exact ⟨g, tree, hresolve, hparses, htokens, hvalue.symm, hrightmost⟩

end FrontEnd
