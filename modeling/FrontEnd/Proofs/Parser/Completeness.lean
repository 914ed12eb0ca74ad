import FrontEnd.Proofs.Parser.Soundness

/-!
# Completeness of parsing

Without conflicts, a run follows each parse tree of its input.  In front of a tree, an item goes on
with the root of the tree, and the token behind the tree may follow; behind the tree the item has
moved over the root.

## Main Definitions

* `Grammar.Awaits` — an item is there on the top of the stacks, and the next token may follow it
* `Grammar.Reads` — a run puts some trees on the stacks

## Main Statements

* `Grammar.exists_reads` — a run follows the parse trees of what an item waits for
* `GrammarDefinition.complete` — every sentence is accepted

## Design Notes

The induction is over parse trees, and its statement is about items: an item that waits for some
symbols is on the top of the stacks, and the run puts the trees of these symbols on them.  A leaf is
a shift.  A node is an item of the closure, whose own trees are put on the stacks first; behind them
it is complete, the token behind the tree is one of its lookaheads, and it is reduced.

Conflicts enter at one place only: without them, the action that an item asks for is the one in the
tables.
-/

namespace FrontEnd

namespace Grammar

open ParseTree

variable {α : Type} {g : Grammar} {s : Semantics α} {symbols : List Symbol}
  {trees trees' : List ParseTree} {c c' c'' : Configuration α}

/-- The terminal of the next token; behind the last one it is the end of the input. -/
def nextId (tokens : List Token) : TokenId := (tokens.headD (Token.atEnd 0)).id

/-- The next token has the identification that the input begins with. -/
theorem id_token (c : Configuration α) : c.token.id = nextId c.input := by
  unfold Configuration.token nextId
  cases c.input <;> rfl

/-- An item is there on the top of the stacks, and the next of some tokens may follow it. -/
structure Awaits (g : Grammar) (c : Configuration α) (i : Item) (rest : List Token) : Prop where
  top_lt : c.top < g.automaton.size
  follows : g.Follows ((g.lookaheads g.automaton).state c.top) i (nextId rest)

/-- A run puts some trees on the stacks, in as many steps as there are events. -/
structure Reads (g : Grammar) (s : Semantics α) (trees : List ParseTree)
    (c c' : Configuration α) : Prop where
  states : c'.states.drop trees.length = c.states
  values : c'.values = (evalAll s trees).reverse ++ c.values
  events : c'.events = (eventsAll trees).reverse ++ c.events
  input : c.input = tokensAll trees ++ c'.input
  run : ∀ bound, g.parser.run s ((eventsAll trees).length + bound) c = g.parser.run s bound c'

theorem Reads.refl (g : Grammar) (s : Semantics α) (c : Configuration α) : g.Reads s [] c c := by
  refine ⟨rfl, rfl, rfl, rfl, fun bound => ?_⟩
  rw [eventsAll, List.length_nil, Nat.zero_add]

theorem run_succ {bound : Nat} (h : g.parser.step s c = .running c') :
    g.parser.run s (bound + 1) c = g.parser.run s bound c' := by
  rw [Parser.run, h]

/-- What is read first and what is read next is read in one go. -/
theorem Reads.trans (h : g.Reads s trees c c') (h' : g.Reads s trees' c' c'') :
    g.Reads s (trees ++ trees') c c'' := by
  refine ⟨?_, ?_, ?_, ?_, fun bound => ?_⟩
  · rw [List.length_append, Nat.add_comm, ← List.drop_drop, h'.states]
    exact h.states
  · rw [h'.values, h.values, evalAll_append, List.reverse_append, List.append_assoc]
  · rw [h'.events, h.events, eventsAll_append, List.reverse_append, List.append_assoc]
  · rw [h.input, h'.input, tokensAll_append, List.append_assoc]
  · rw [eventsAll_append, List.length_append, Nat.add_assoc, h.run, h'.run]

/-! ### The next symbol of an item

Where an item goes on with a nonterminal, the closure has the items that begin there.  What may
follow them is given by the rest of the first item, and this is where the leaves of the next trees
come in. -/

section Next

variable {i : Item}

/-- The token behind a tree may follow the items that begin with the tree: the rest of the item
begins with it, or the rest is empty and it follows the item. -/
theorem Awaits.successor (h : g.Awaits c i rest) (hg : g.WellFormed) {j : Item}
    (hj : j ∈ g.successors i) (hparses : g.Parses (g.tail i) trees) :
    g.Awaits c j (tokensAll trees ++ rest) := by
  have hderives := hparses.derives
  refine ⟨h.top_lt, ?_⟩
  cases htokens : tokensAll trees with
  | nil =>
    rw [htokens] at hderives
    exact h.follows.carry hj ((nullable_firstOf_iff hg).2 hderives)
  | cons token tokens =>
    rw [htokens] at hderives
    exact .first h.follows.mem_closure hj ((mem_firstOf_iff hg).2 ⟨sentenceOf tokens, hderives⟩)

end Next

/-! ### Steps

A leaf is read by a shift, and a node by a reduction behind its children.  In both cases the action
in the tables is the one that the item asks for, as there are no conflicts. -/

section Steps

variable {i : Item} {x : Symbol} {rest : List Token} {target : Nat}

/-- There is a move over the next symbol of an item, and behind it the item has moved. -/
theorem Awaits.exists_target (h : g.Awaits c i rest) (hg : g.WellFormed)
    (hnext : g.nextSymbol? i = some x) :
    ∃ target, g.automaton.target? c.top x = some target ∧ target < g.automaton.size ∧
      g.Follows ((g.lookaheads g.automaton).state target) i.advance (nextId rest) := by
  have ha := g.isAutomaton_automaton
  have hl := isLookaheads hg
  have hi : i ∈ g.closure (g.automaton.kernel c.top) :=
    hl.isOver.map_fst c.top ▸ h.follows.mem_closure
  obtain ⟨target, htarget⟩ := ha.exists_target c.top i x h.top_lt hi hnext
  exact ⟨target, htarget, (ha.target_lt _ _ _ htarget).2,
    hl.follows_of_mem_follow ha (hl.mem_follow_of_follows hg ha h.follows hnext htarget)⟩

/-- The token that an item goes on with is shifted. -/
theorem Awaits.shift (hg : g.WellFormed) (hfree : g.ConflictFree) {token : Token}
    {behind : List Token} (h : g.Awaits c i rest)
    (hnext : g.nextSymbol? i = some (.terminal token.id)) (hinput : c.input = token :: behind) :
    ∃ c', g.Reads s [.leaf token] c c' ∧ c'.input = behind ∧ g.Awaits c' i.advance rest := by
  obtain ⟨target, htarget, hlt, hfollows⟩ := h.exists_target hg hnext
  have htoken : c.token = token := by
    unfold Configuration.token
    rw [hinput]
    rfl
  have haction : g.parser.action c.top c.token.id = .shift target := by
    rw [htoken]
    exact action_eq_of_justified hg hfree h.top_lt
      ((mem_concerned g.isAutomaton_automaton).2 (.inl ⟨target, htarget⟩)) htarget rfl
  have hstep := Parser.step_shift (s := s) haction
  rw [htoken, hinput] at hstep
  refine ⟨⟨target :: c.states, s.shift token :: c.values, behind, token.stop,
    .shift token :: c.events⟩, ⟨rfl, rfl, rfl, hinput, fun bound => ?_⟩, rfl, ⟨hlt, hfollows⟩⟩
  have hlength : (eventsAll [.leaf token]).length + bound = bound + 1 := Nat.add_comm 1 bound
  rw [hlength]
  exact run_succ hstep

/-- The production of an item that has moved over its right-hand side is reduced, and an item that
goes on with the left-hand side moves over it. -/
theorem Awaits.reduce (hg : g.WellFormed) (hfree : g.ConflictFree) {q : Nat}
    {production : Production} {children : List ParseTree} (hq : g.productions[q]? = some production)
    (h : g.Awaits c i rest) (hnext : g.nextSymbol? i = some (.nonterminal production.lhs))
    (hreads : g.Reads s children c c') (hlength : children.length = production.rhs.length)
    {behind : List Token} (hinput : c'.input = behind)
    (hawaits : g.Awaits c' ⟨q, production.rhs.length⟩ behind) :
    ∃ c'', g.Reads s [.node q production.lhs children] c c'' ∧ c''.input = behind ∧
      g.Awaits c'' i.advance rest := by
  obtain ⟨target, htarget, hlt, hfollows⟩ := h.exists_target hg hnext
  have hcomplete : g.isComplete ⟨q, production.rhs.length⟩ = true :=
    isComplete_of_dot_eq (by rw [rhsOf_of_getElem? hq])
  have hne : q ≠ g.acceptProduction := Nat.ne_of_lt (Array.getElem?_eq_some_iff.1 hq).choose
  -- the completed item justifies the reduction, and without conflicts nothing else is done
  have haction : g.parser.action c'.top c'.token.id = .reduce q := by
    rw [id_token, hinput]
    exact action_eq_of_justified hg hfree hawaits.top_lt
      (mem_concerned_of_follows hg g.isAutomaton_automaton (isLookaheads hg) hawaits.follows
        hcomplete)
      ⟨hne, _, hawaits.follows, hcomplete, rfl⟩ rfl
  have hgoto : g.parser.goto ((c'.states.drop production.rhs.length).headD 0) production.lhs =
      .goto target := by
    rw [← hlength, hreads.states]
    exact goto_generate h.top_lt (hg.lhs_lt _ (Array.mem_of_getElem? hq)) htarget
  have hvalues : (evalAll s children).reverse.length = production.rhs.length := by
    rw [List.length_reverse, length_evalAll, hlength]
  have hstep := Parser.step_reduce (s := s) haction hq hgoto
  rw [hreads.values, List.take_left' hvalues, List.drop_left' hvalues, List.reverse_reverse]
    at hstep
  refine ⟨⟨target :: c'.states.drop production.rhs.length,
    s.reduce q production.lhs (evalAll s children) :: c.values, c'.input, c'.position,
    .reduce q production.lhs production.rhs.length :: c'.events⟩,
    ⟨?_, rfl, ?_, ?_, fun bound => ?_⟩, hinput, ⟨hlt, hfollows⟩⟩
  · rw [← hlength]
    exact hreads.states
  · rw [hreads.events, ← hlength]
    simp [eventsAll, ParseTree.events]
  · rw [hreads.input]
    simp [tokensAll, tokens]
  · have hevents : (eventsAll [.node q production.lhs children]).length + bound =
        (eventsAll children).length + (bound + 1) := by
      simp only [eventsAll, ParseTree.events, List.append_nil, List.length_append,
        List.length_singleton]
      omega
    rw [hevents, hreads.run, run_succ hstep]

end Steps

/-- **A run follows the parse trees** of the symbols that an item waits for, and then the item has
moved over them. -/
theorem exists_reads (hg : g.WellFormed) (hfree : g.ConflictFree) (h : g.Parses symbols trees)
    {i : Item} {rest : List Token} (hsymbols : (g.rhsOf i.production).drop i.dot = symbols)
    (hinput : c.input = tokensAll trees ++ rest) (hawaits : g.Awaits c i rest) :
    ∃ c', g.Reads s trees c c' ∧ c'.input = rest ∧
      g.Awaits c' ⟨i.production, i.dot + symbols.length⟩ rest := by
  induction h generalizing c i rest with
  | nil => exact ⟨c, .refl g s c, hinput, hawaits⟩
  | @leaf symbols trees token hparses ih =>
    obtain ⟨c₁, hfirst, hinput₁, hawaits₁⟩ :=
      hawaits.shift (s := s) hg hfree (nextSymbol?_of_drop hsymbols) hinput
    obtain ⟨c₂, hrest, hinput₂, hawaits₂⟩ :=
      ih (i := i.advance) (tail_of_drop hsymbols) hinput₁ hawaits₁
    refine ⟨c₂, hfirst.trans hrest, hinput₂, ?_⟩
    rw [List.length_cons, ← Nat.succ_add_eq_add_succ]
    exact hawaits₂
  | @node q production symbols children trees hq hchildren hparses ihchildren ih =>
    have hnext := nextSymbol?_of_drop hsymbols
    have htail := tail_of_drop hsymbols
    have hsuccessor : Item.start q ∈ g.successors i :=
      mem_successors.2 ⟨q, production, hq, hnext, rfl⟩
    have hbegin := hawaits.successor hg hsuccessor (htail.symm ▸ hparses)
    have hinput' : c.input = tokensAll children ++ (tokensAll trees ++ rest) := by
      rw [hinput, tokensAll, tokens, List.append_assoc]
    -- the children are read first, and their production is reduced behind them
    obtain ⟨c₁, hreads, hinput₁, hawaits₁⟩ :=
      ihchildren (i := Item.start q) (rhsOf_of_getElem? hq) hinput' hbegin
    rw [show (Item.start q).dot + production.rhs.length = production.rhs.length from
      Nat.zero_add _] at hawaits₁
    obtain ⟨c₂, hfirst, hinput₂, hawaits₂⟩ :=
      hawaits.reduce hg hfree hq hnext hreads hchildren.length_eq hinput₁ hawaits₁
    obtain ⟨c₃, hrest, hinput₃, hawaits₃⟩ := ih (i := i.advance) htail hinput₂ hawaits₂
    refine ⟨c₃, hfirst.trans hrest, hinput₃, ?_⟩
    rw [List.length_cons, ← Nat.succ_add_eq_add_succ]
    exact hawaits₃

/-- In the beginning, the start symbol is awaited in front of the end of the input. -/
theorem awaits_start (hg : g.WellFormed) (input : List Token) :
    g.Awaits (Configuration.start α input) (Item.start g.acceptProduction) [] := by
  have ha := g.isAutomaton_automaton
  have hl := isLookaheads hg
  exact ⟨ha.size_pos, hl.follows_of_mem_follow ha ((hl.follow_iff _ _ _).2 .initial)⟩

/-- Where the start symbol has been read in front of the end of the input, the input is accepted. -/
theorem Awaits.action_accept (hg : g.WellFormed) (hfree : g.ConflictFree)
    (h : g.Awaits c ⟨g.acceptProduction, 1⟩ []) (hinput : c.input = []) :
    g.parser.action c.top c.token.id = .accept := by
  have hl := isLookaheads hg
  have hmem : ⟨g.acceptProduction, 1⟩ ∈ g.closure (g.automaton.kernel c.top) :=
    hl.isOver.map_fst c.top ▸ h.follows.mem_closure
  rw [id_token, hinput]
  exact action_eq_of_justified hg hfree h.top_lt
    (mem_concerned_of_follows hg g.isAutomaton_automaton hl h.follows g.isComplete_accept)
    ⟨rfl, _, hmem, g.isComplete_accept, rfl⟩ rfl

/-- A sentence has a parse tree that the run over it ends with. -/
theorem exists_run_of_derives (hg : g.WellFormed) (hfree : g.ConflictFree) (s : Semantics α)
    {tokens : List Token} (hderives : g.Derives [.nonterminal g.start] (sentenceOf tokens)) :
    ∃ tree, g.Parses [.nonterminal g.start] [tree] ∧ tree.tokens = tokens ∧
      ∀ bound, tree.events.length < bound →
        g.parser.run s bound (Configuration.start α tokens) =
          some ⟨.ok (tree.eval s), tree.events ++ [.accept]⟩ := by
  obtain ⟨trees, hparses, htokens⟩ := exists_parses_of_derives hderives
  obtain ⟨tree, rfl⟩ := List.length_eq_one_iff.1 hparses.length_eq
  have heventsAll : eventsAll [tree] = tree.events := List.append_nil _
  have htokensAll : tokensAll [tree] = tree.tokens := List.append_nil _
  refine ⟨tree, hparses, htokensAll.symm.trans htokens, fun bound hbound => ?_⟩
  have hinput : (Configuration.start α tokens).input = tokensAll [tree] ++ [] := by
    rw [List.append_nil, htokens]
    rfl
  obtain ⟨c, hreads, hinput', hawaits⟩ :=
    exists_reads (s := s) (i := Item.start g.acceptProduction) hg hfree hparses
      g.rhsOf_accept hinput (awaits_start hg tokens)
  have haction := hawaits.action_accept hg hfree hinput'
  have hvalues : c.values = [tree.eval s] := hreads.values
  have hevents : c.events.reverse = tree.events := by
    rw [hreads.events, heventsAll]
    simp [Configuration.start]
  obtain ⟨left, rfl⟩ := Nat.exists_eq_add_of_lt hbound
  have hrun := hreads.run (left + 1)
  rw [heventsAll, ← Nat.add_assoc] at hrun
  rw [hrun, Parser.run, Parser.step_accept haction hvalues]
  simp only [List.reverse_cons, hevents]

end Grammar

/-- **Completeness of parsing.**  Without conflicts, every sentence of the grammar is accepted: as
soon as the bound lies above the number of events, the run ends with the value of a parse tree of
the sentence. -/
theorem GrammarDefinition.complete {α : Type} {d : GrammarDefinition} {p : Parser} {g : Grammar}
    (hd : d.Reachable) (hbuild : d.buildParser = .ok p) (hresolve : d.resolve = .ok g)
    (hfree : g.ConflictFree) (s : Semantics α) {tokens : List Token}
    (hderives : g.Derives [.nonterminal g.start] (Grammar.sentenceOf tokens)) :
    ∃ tree, g.Parses [.nonterminal g.start] [tree] ∧ tree.tokens = tokens ∧
      ∀ bound, tree.events.length < bound →
        p.run s bound (Configuration.start α tokens) =
          some ⟨.ok (tree.eval s), tree.events ++ [.accept]⟩ := by
  have hg := d.wellFormed_of_resolve hd hresolve
  obtain rfl := eq_parser_of_buildParser hbuild hresolve
  exact Grammar.exists_run_of_derives hg hfree s hderives

/-- Lists of items. -/
def lists : GrammarDefinition :=
  ((GrammarDefinition.empty.declareTokens "item").2.addProductions "list"
    "list item | %empty").2

/-- Two items. -/
def twoItems : List Token := [⟨1, 0, 0, 1, 0, []⟩, ⟨1, 0, 1, 2, 0, []⟩]

/-- The parser of lists accepts two items. -/
theorem GrammarDefinition.complete_lists :
    ∃ (p : Parser) (g : Grammar) (tree : ParseTree),
      lists.buildParser = .ok p ∧ lists.resolve = .ok g ∧ g.ConflictFree ∧
      g.Derives [.nonterminal g.start] (Grammar.sentenceOf twoItems) ∧
      tree.tokens = twoItems ∧ ∀ bound, tree.events.length < bound →
        p.run Semantics.trivial bound (Configuration.start Unit twoItems) =
          some ⟨.ok (), tree.events ++ [.accept]⟩ := by
  have hlists : (match lists.resolve with
      | .ok g => some (g.productions.toList, decide g.ConflictFree)
      | .error _ => none) = some ([⟨0, [.nonterminal 0, .terminal 1], none⟩, ⟨0, [], none⟩],
        true) := by decide +kernel
  split at hlists
  · next g hresolve =>
    obtain ⟨hproductions, hfree⟩ := Prod.mk.inj (Option.some.inj hlists)
    have hfree := of_decide_eq_true hfree
    have hstart : g.start = 0 := by rw [Grammar.start, hproductions]; rfl
    have hmem : ∀ p, p ∈ g.productions ↔
        p = ⟨0, [.nonterminal 0, .terminal 1], none⟩ ∨ p = ⟨0, [], none⟩ := by
      intro p
      rw [← Array.mem_toList_iff, hproductions]
      simp
    have hitem := Grammar.derives_of_mem ((hmem _).2 (.inl rfl))
    have hempty := Grammar.derives_of_mem ((hmem _).2 (.inr rfl))
    have hderives : g.Derives [.nonterminal g.start] (Grammar.sentenceOf twoItems) := by
      have hone : g.Derives [.nonterminal 0] [.terminal 1] :=
        hitem.trans (hempty.append_right [.terminal 1])
      rw [hstart]
      exact hitem.trans (hone.append_right [.terminal 1])
    have hbuild : lists.buildParser = .ok g.parser := by
      rw [buildParser, hresolve]
      rfl
    obtain ⟨tree, -, htokens, hrun⟩ := complete (.productions _ _ (.tokens _ .empty)) hbuild
      hresolve hfree Semantics.trivial hderives
    exact ⟨g.parser, g, tree, hbuild, hresolve, hfree, hderives, htokens, hrun⟩
  · cases hlists

end FrontEnd
