import FrontEnd.Proofs.Parser.Completeness
import FrontEnd.Proofs.Parser.Termination

/-!
# Prefixes of sentences

A run shifts nothing that no sentence goes on with, whatever conflicts there were, when all
nonterminals derive sentences: the symbols that have been read are the beginning of what the start
symbol derives.  Without conflicts it refuses nothing that a sentence goes on with either.  Up to
the refused token, the run over such a sentence would take the same steps, but it is accepted.

## Main Definitions

* `Grammar.BeginsSentence` — some terminals are the beginning of a sentence

## Main Statements

* `Grammar.Viable.exists_derives` — what has been read in front of a viable item is the beginning of
  what the start symbol derives
* `Grammar.Stacks.replay` — steps are the same in front of other tokens
* `GrammarDefinition.prefixes` — tokens are refused at the earliest place

## Design Notes

The first half needs no condition on conflicts, since every action is justified by some item of the
state: an item that is viable behind what has been read lies on the way of a derivation, and the
rest of the derivation can be completed when all nonterminals are productive.

The second half compares two inputs with a common beginning.  Up to the refused token a run makes
the same steps on both, because a step looks at the next token only.
-/

namespace FrontEnd

variable {α : Type}

/-! ### Runs

A run is cut at a configuration that it goes through: it goes on from there as before, and where it
ends with a refusal, there is a configuration in which a token is refused. -/

namespace Parser

variable {p : Parser} {s : Semantics α} {c c' : Configuration α}

/-- A run goes on as it does from a configuration that it reaches. -/
theorem Reaches.exists_run_eq (h : p.Reaches s c c') :
    ∃ n, ∀ bound, p.run s (n + bound) c = p.run s bound c' := by
  induction h using Relation.ReflTransGen.head_induction_on with
  | refl => exact ⟨0, fun bound => by rw [Nat.zero_add]⟩
  | head hstep _ ih =>
    obtain ⟨n, hn⟩ := ih
    refine ⟨n + 1, fun bound => ?_⟩
    rw [Nat.add_right_comm, Parser.run, hstep]
    exact hn bound

/-- A run that ends with a refusal reaches a configuration where a token is refused. -/
theorem exists_refused_of_run {bound : Nat} {e : ParseError} {events : List Event}
    (h : p.run s bound c = some ⟨.error e, events⟩) :
    ∃ c' events', p.Reaches s c c' ∧ p.step s c' = .refused e events' ∧
      events = events'.reverse := by
  induction bound generalizing c with
  | zero => cases h
  | succ bound ih =>
    unfold Parser.run at h
    cases hstep : p.step s c with
    | running c' =>
      rw [hstep] at h
      obtain ⟨c'', events', hreaches, hrefused⟩ := ih h
      exact ⟨c'', events', .head hstep hreaches, hrefused⟩
    | accepted value events' =>
      rw [hstep] at h
      simp at h
    | refused e' events' =>
      rw [hstep] at h
      simp only [Option.some.injEq, Run.mk.injEq, Except.error.injEq] at h
      obtain ⟨rfl, rfl⟩ := h
      exact ⟨c, events', .refl, hstep, rfl⟩

/-- A reduction does not look at the tokens behind the terminal of the next one. -/
theorem step_reduce_congr {q : Nat} {tokens : List Token}
    (haction : p.action c.top c.token.id = .reduce q) (hstep : p.step s c = .running c')
    (hid : Grammar.nextId tokens = c.token.id) :
    p.step s { c with input := tokens } = .running { c' with input := tokens } := by
  have haction' : p.action c.top (Configuration.token { c with input := tokens }).id =
      .reduce q := by
    rw [Grammar.id_token]
    exact hid ▸ haction
  unfold step at hstep ⊢
  dsimp only at hstep ⊢
  rw [haction] at hstep
  rw [show Configuration.top { c with input := tokens } = c.top from rfl, haction']
  unfold reduceStep at hstep ⊢
  dsimp only at hstep ⊢
  split at hstep
  · obtain rfl := StepResult.running.inj hstep
    rfl
  · cases hstep

end Parser

namespace Grammar

open ParseTree

variable {g : Grammar} {s : Semantics α} {input : List Token} {symbols : List Symbol}
  {trees : List ParseTree} {c c' : Configuration α} {i : Item}

/-- Some terminals are the beginning of a sentence. -/
def BeginsSentence (g : Grammar) (w : List TokenId) : Prop :=
  ∃ rest, g.Derives [.nonterminal g.start] (sentence (w ++ rest))

/-! ### What has been shifted

The symbols on the stacks lead from the start state to the top.  An item on the top is viable behind
them, and what is viable is the beginning of what the start symbol derives. -/

/-- Where symbols lead to a state, an item is viable after them. -/
theorem exists_viable {state : Nat} (h : g.automaton.stateAfter? symbols = some state) :
    ∃ i, g.Viable symbols i := by
  rcases List.eq_nil_or_concat symbols with rfl | ⟨front, x, rfl⟩
  · exact ⟨_, .start⟩
  · rw [List.concat_eq_append] at h ⊢
    obtain ⟨below, hbelow, ht⟩ := stateAfter?_append.1 h
    obtain ⟨i, hi, hnext⟩ := g.isAutomaton_automaton.exists_next below x state ht
    exact ⟨_, ((viable_iff g.isAutomaton_automaton).2 ⟨below, hbelow, hi⟩).goto hnext⟩

/-- **What has been read in front of a viable item** is the beginning of what the start symbol
derives, and the rest of the item goes on with it. -/
theorem Viable.exists_derives (h : g.Viable symbols i) :
    ∃ behind, g.Derives [.nonterminal g.start]
      (symbols ++ ((g.rhsOf i.production).drop i.dot ++ behind)) := by
  induction h with
  | start =>
    refine ⟨[], ?_⟩
    rw [g.drop_accept]
    exact .refl
  | @closure symbols i j _ hj ih =>
    obtain ⟨behind, hderives⟩ := ih
    obtain ⟨p, production, hp, hnext, rfl⟩ := mem_successors.1 hj
    rw [drop_of_nextSymbol? hnext] at hderives
    refine ⟨g.tail i ++ behind, hderives.tail ?_⟩
    rw [drop_start hp]
    exact .replace symbols _ (Array.mem_of_getElem? hp)
  | @goto symbols i x _ hnext ih =>
    obtain ⟨behind, hderives⟩ := ih
    rw [drop_of_nextSymbol? hnext] at hderives
    refine ⟨behind, ?_⟩
    rw [List.append_assoc]
    exact hderives

/-- Where all nonterminals are productive, what has been read goes on to a sentence. -/
theorem Viable.beginsSentence (hproductive : ∀ v, g.Occurs v → g.Productive v)
    (h : g.Viable symbols i) {w : List TokenId} (hw : g.Derives symbols (sentence w)) :
    g.BeginsSentence w := by
  obtain ⟨behind, hderives⟩ := h.exists_derives
  have hall : ∀ v, .nonterminal v ∈ (g.rhsOf i.production).drop i.dot ++ behind →
      g.Productive v := by
    intro v hv
    obtain ⟨u, u', hsplit⟩ := List.append_of_mem hv
    rw [hsplit, ← List.append_assoc] at hderives
    exact hproductive v ⟨_, _, hderives⟩
  obtain ⟨rest, hrest⟩ := exists_sentence hall
  refine ⟨rest, hderives.trans ?_⟩
  rw [sentence_append]
  exact hw.append hrest

/-- What has been shifted are the leaves of the trees on the stacks. -/
theorem Stacks.shifted (h : g.Stacks s input symbols trees c) :
    c.events.reverse.filterMap Event.shifted? = tokensAll trees := by
  rw [h.events]
  exact h.parses.shifted

/-- **What has been shifted is the beginning of a sentence**, where all nonterminals are
productive. -/
theorem Stacks.beginsSentence (hproductive : ∀ v, g.Occurs v → g.Productive v)
    (h : g.Stacks s input symbols trees c) : g.BeginsSentence ((tokensAll trees).map Token.id) := by
  obtain ⟨i, hi⟩ := exists_viable h.stateAfter?
  exact hi.beginsSentence hproductive h.parses.derives

/-! ### What has been refused

A refused token is compared with one that a sentence would have there.  If there were such a
sentence, its run would come to the same configuration and take a step. -/

/-- What is refused has an error in its entry. -/
theorem Stacks.exists_fault (h : g.Stacks s input symbols trees c) (hg : g.WellFormed)
    {e : ParseError} {events : List Event} (hstep : g.parser.step s c = .refused e events) :
    ∃ fault, g.parser.action c.top c.token.id = .error fault ∧
      e = g.parser.refusal fault c.top c.token ∧ events = c.events := by
  cases haction : g.parser.action c.top c.token.id with
  | shift target =>
    rw [Parser.step_shift haction] at hstep
    cases hstep
  | reduce q =>
    obtain ⟨-, c', -, -, -, -, -, -, -, -, hstep', -⟩ := h.reduce hg haction
    rw [hstep'] at hstep
    cases hstep
  | accept =>
    obtain ⟨tree, -, hvalues, -⟩ := h.accept hg haction
    rw [Parser.step_accept haction hvalues] at hstep
    cases hstep
  | goto target =>
    have hproceeds := h.proceeds hg
    rw [haction] at hproceeds
    exact hproceeds.elim
  | error fault =>
    rw [Parser.step_error haction] at hstep
    obtain ⟨rfl, rfl⟩ := StepResult.refused.inj hstep
    exact ⟨fault, rfl, rfl, rfl⟩

/-- A step is the same in front of other tokens, when they begin with the same terminal. -/
theorem Stacks.step_replay (h : g.Stacks s input symbols trees c) (hg : g.WellFormed)
    (hstep : g.parser.step s c = .running c') {between rest rest' : List Token}
    (hinput : c'.input = between ++ rest) (hid : nextId rest' = nextId rest) :
    ∃ between', c.input = between' ++ rest ∧
      g.parser.step s { c with input := between' ++ rest' } =
        .running { c' with input := between ++ rest' } := by
  rcases h.action_of_running hg hstep with ⟨target, haction⟩ | ⟨q, haction⟩
  · have hcons := (h.exists_input hg haction).1
    rw [Parser.step_shift haction] at hstep
    obtain rfl := StepResult.running.inj hstep
    refine ⟨c.token :: between, by rw [hcons, List.cons_append, ← hinput], ?_⟩
    exact Parser.step_shift (c := { c with input := c.token :: between ++ rest' }) haction
  · obtain ⟨-, after, -, -, -, -, -, -, -, -, hstep', hsame, -⟩ := h.reduce hg haction
    obtain rfl := StepResult.running.inj (hstep'.symm.trans hstep)
    refine ⟨between, hsame.symm.trans hinput, Parser.step_reduce_congr haction hstep ?_⟩
    rw [id_token, ← hsame, hinput]
    cases between with
    | nil => exact hid
    | cons token between => rfl

/-- **Steps are the same in front of other tokens**, when they begin with the same terminal. -/
theorem Stacks.replay (h : g.Stacks s input symbols trees c) (hg : g.WellFormed)
    (hreaches : g.parser.Reaches s c c') {rest' : List Token}
    (hid : nextId rest' = nextId c'.input) :
    ∃ between, c.input = between ++ c'.input ∧
      g.parser.Reaches s { c with input := between ++ rest' } { c' with input := rest' } := by
  induction hreaches using Relation.ReflTransGen.head_induction_on generalizing symbols trees with
  | refl => exact ⟨[], rfl, .refl⟩
  | head hstep _ ih =>
    have hleads := h.step hg
    rw [hstep] at hleads
    obtain ⟨symbols', trees', h'⟩ := hleads
    obtain ⟨between, hinput, hreaches⟩ := ih h'
    obtain ⟨between', hinput', hstep'⟩ := h.step_replay hg hstep hinput hid
    exact ⟨between', hinput', .head hstep' hreaches⟩

/-- **Nothing is refused that a sentence goes on with**, when there are no conflicts. -/
theorem not_derives_of_refused (hg : g.WellFormed) (hfree : g.ConflictFree)
    {tokens shifted rest : List Token}
    (hreaches : g.parser.Reaches s (Configuration.start α tokens) c)
    (htokens : tokens = shifted ++ c.input) {fault : ParseFault}
    (haction : g.parser.action c.top c.token.id = .error fault)
    (hid : nextId rest = c.token.id) :
    ¬ g.Derives [.nonterminal g.start] (sentenceOf (shifted ++ rest)) := by
  intro hderives
  obtain ⟨tree, -, -, haccepted⟩ := exists_run_of_derives hg hfree s hderives
  rw [id_token] at hid
  obtain ⟨between, hinput, hreplay⟩ := (g.stacks_start s tokens).replay hg hreaches hid
  obtain rfl : between = shifted := List.append_cancel_right (hinput.symm.trans htokens)
  obtain ⟨n, hn⟩ := hreplay.exists_run_eq
  have haction' : g.parser.action c.top (Configuration.token { c with input := rest }).id =
      .error fault := by
    rw [id_token, hid, ← id_token]
    exact haction
  -- the run over the sentence is refused in the same place, but it is accepted
  have hrefused : ∃ e events, g.parser.run s (n + 1) (Configuration.start α (between ++ rest)) =
      some ⟨.error e, events⟩ := by
    have hstep := Parser.step_error (s := s) (c := { c with input := rest }) haction'
    exact ⟨_, _, (hn 1).trans (by rw [Parser.run, hstep])⟩
  obtain ⟨e, events, hrefused⟩ := hrefused
  have hlt : tree.events.length < n + 1 + (tree.events.length + 1) := by omega
  have hboth := (haccepted _ hlt).symm.trans (Parser.run_mono hrefused (Nat.le_add_right _ _))
  simp at hboth

end Grammar

/-- **Tokens are refused at the earliest place.**  Where all nonterminals are productive, the tokens
that have been shifted are always the beginning of a sentence, whatever conflicts there were.
Without conflicts, a token is refused as unknown when it is no terminal, and otherwise as
unexpected, when no sentence goes on with it behind the tokens that have been shifted; at the end of
the input these are no sentence. -/
theorem GrammarDefinition.prefixes {d : GrammarDefinition} {p : Parser} {g : Grammar}
    (hd : d.Reachable) (hbuild : d.buildParser = .ok p) (hresolve : d.resolve = .ok g)
    (s : Semantics α) (tokens : List Token) :
    ((∀ v < g.numNonterminals, g.Productive v) →
      ∀ c, p.Reaches s (Configuration.start α tokens) c →
        let shifted := c.events.reverse.filterMap Event.shifted?
        tokens = shifted ++ c.input ∧ g.BeginsSentence (shifted.map Token.id)) ∧
    (g.ConflictFree → ∀ bound e events,
      p.run s bound (Configuration.start α tokens) = some ⟨.error e, events⟩ →
        let shifted := events.filterMap Event.shifted?
        ∃ rest, tokens = shifted ++ rest ∧ e.token = Grammar.nextId rest ∧
          (¬ (0 ≤ e.token ∧ e.token < g.numTerminals) ∧ e.fault = .unknownToken ∨
            (0 ≤ e.token ∧ e.token < g.numTerminals) ∧ e.fault = .unexpected ∧
              (e.token ≠ TokenId.endOfInput →
                ¬ g.BeginsSentence (shifted.map Token.id ++ [e.token])) ∧
              (e.token = TokenId.endOfInput →
                ¬ g.Derives [.nonterminal g.start] (Grammar.sentenceOf shifted)))) := by
  have hg := d.wellFormed_of_resolve hd hresolve
  obtain rfl := eq_parser_of_buildParser hbuild hresolve
  constructor
  · intro hproductive c hreaches shifted
    obtain ⟨symbols, trees, h⟩ := Grammar.exists_stacks_of_reaches hg hreaches
    have hshifted : shifted = ParseTree.tokensAll trees := h.shifted
    rw [hshifted]
    exact ⟨h.input, h.beginsSentence fun v hv => hproductive v (hv.lt_numNonterminals hg)⟩
  · intro hfree bound e events hrun shifted
    obtain ⟨c, events', hreaches, hstep, rfl⟩ := Parser.exists_refused_of_run hrun
    obtain ⟨symbols, trees, h⟩ := Grammar.exists_stacks_of_reaches hg hreaches
    obtain ⟨fault, haction, rfl, rfl⟩ := h.exists_fault hg hstep
    have hshifted : shifted = ParseTree.tokensAll trees := h.shifted
    have htokens : tokens = shifted ++ c.input := hshifted ▸ h.input
    refine ⟨c.input, htokens, Grammar.id_token c, ?_⟩
    show ¬ (0 ≤ c.token.id ∧ c.token.id < g.numTerminals) ∧ fault = .unknownToken ∨
      (0 ≤ c.token.id ∧ c.token.id < g.numTerminals) ∧ fault = .unexpected ∧
        (c.token.id ≠ TokenId.endOfInput →
          ¬ g.BeginsSentence (shifted.map Token.id ++ [c.token.id])) ∧
        (c.token.id = TokenId.endOfInput →
          ¬ g.Derives [.nonterminal g.start] (Grammar.sentenceOf shifted))
    by_cases hrange : ∃ k < g.numTerminals, c.token.id = Int.ofNat k
    · obtain ⟨k, hk, hid⟩ := hrange
      have hcolumn : 0 ≤ c.token.id ∧ c.token.id < g.numTerminals := by
        rw [hid]
        exact ⟨Int.natCast_nonneg k, Int.ofNat_lt.2 hk⟩
      have hfault := Grammar.eq_unexpected_of_action hg hfree h.top_lt hk (hid ▸ haction)
      refine .inr ⟨hcolumn, hfault, ?_, ?_⟩
      · rintro - ⟨w, hderives⟩
        have hnext : Grammar.nextId (c.token :: w.map fun t => ⟨t, 0, 0, 0, 0, []⟩) =
            c.token.id := rfl
        refine Grammar.not_derives_of_refused hg hfree hreaches htokens haction hnext ?_
        simpa [Grammar.sentenceOf, Function.comp_def] using hderives
      · intro hend hderives
        have hnext : Grammar.nextId [] = c.token.id := hend.symm
        refine Grammar.not_derives_of_refused hg hfree hreaches htokens haction hnext ?_
        rwa [List.append_nil]
    · refine .inl ⟨fun hcolumn => hrange ⟨c.token.id.toNat, ?_, ?_⟩, ?_⟩
      · exact (Int.toNat_lt hcolumn.1).2 hcolumn.2
      · exact (Int.toNat_of_nonneg hcolumn.1).symm
      · have hunknown := Grammar.action_eq_unknownToken hg hrange c.top
        exact Action.error.inj (haction.symm.trans hunknown)

/-- Two marks. -/
def twoMarks : List Token := [⟨1, 0, 0, 1, 0, []⟩, ⟨1, 0, 1, 2, 0, []⟩]

/-- Two marks without a name begin a sentence, but behind them the end of the input is refused. -/
theorem GrammarDefinition.prefixes_marks :
    ∃ (p : Parser) (g : Grammar), marks.buildParser = .ok p ∧ marks.resolve = .ok g ∧
      g.ConflictFree ∧ (∀ v < g.numNonterminals, g.Productive v) ∧
      g.BeginsSentence [1, 1] ∧
      ¬ g.Derives [.nonterminal g.start] (Grammar.sentenceOf twoMarks) := by
  have hmarks : (match marks.resolve with
      | .ok g => some (g.productions.toList, g.numNonterminals, decide g.ConflictFree)
      | .error _ => none) = some ([⟨0, [.nonterminal 1, .terminal 2], none⟩,
        ⟨1, [.nonterminal 1, .nonterminal 2], none⟩, ⟨1, [], none⟩, ⟨2, [.nonterminal 3], none⟩,
        ⟨3, [.terminal 1], none⟩], 4, true) := by decide +kernel
  have hrun : marks.buildParser.map (fun p =>
      (p.run Semantics.trivial 20 (Configuration.start Unit twoMarks)).map fun run =>
        (run.result.mapError ParseError.token, run.events.filterMap Event.shifted?)) =
      .ok (some (.error 0, twoMarks)) := by decide +kernel
  have hd : marks.Reachable :=
    .productions _ _ (.productions _ _ (.productions _ _ (.productions _ _ (.tokens _ .empty))))
  split at hmarks
  · next g hresolve =>
    simp only [Option.some.injEq, Prod.mk.injEq] at hmarks
    obtain ⟨hproductions, hcount, hfree⟩ := hmarks
    have hfree := of_decide_eq_true hfree
    have hg := marks.wellFormed_of_resolve hd hresolve
    have hbuild : marks.buildParser = .ok g.parser := by
      rw [buildParser, hresolve]
      rfl
    have hmem : ∀ p ∈ g.productions.toList, g.Derives [.nonterminal p.lhs] p.rhs :=
      fun p hp => Grammar.derives_of_mem (Array.mem_toList_iff.1 hp)
    rw [hproductions] at hmem
    have hmarksEmpty : g.Derives [.nonterminal 1] [] := hmem ⟨1, [], none⟩ (by simp)
    have hmarked : g.Derives [.nonterminal 0] [.terminal 2] :=
      (hmem ⟨0, [.nonterminal 1, .terminal 2], none⟩ (by simp)).trans
        (hmarksEmpty.append_right [.terminal 2])
    have hsign : g.Derives [.nonterminal 3] [.terminal 1] := hmem ⟨3, [.terminal 1], none⟩ (by simp)
    have hone : g.Derives [.nonterminal 2] [.terminal 1] :=
      (hmem ⟨2, [.nonterminal 3], none⟩ (by simp)).trans hsign
    have hproductive : ∀ v < g.numNonterminals, g.Productive v := by
      intro v hv
      rw [hcount] at hv
      obtain rfl | rfl | rfl | rfl : v = 0 ∨ v = 1 ∨ v = 2 ∨ v = 3 := by omega
      · exact ⟨[2], hmarked⟩
      · exact ⟨[], hmarksEmpty⟩
      · exact ⟨[1], hone⟩
      · exact ⟨[1], hsign⟩
    obtain ⟨hbegins, hrefused⟩ := prefixes hd hbuild hresolve Semantics.trivial twoMarks
    rw [hbuild] at hrun
    obtain ⟨⟨result, events⟩, herror, hends⟩ := Option.map_eq_some_iff.1 (Except.ok.inj hrun)
    obtain ⟨hresult, hshifted⟩ := Prod.mk.inj hends
    cases result with
    | ok value => cases hresult
    | error e =>
      have htoken : e.token = 0 := Except.error.inj hresult
      refine ⟨g.parser, g, hbuild, hresolve, hfree, hproductive, ?_, ?_⟩
      · obtain ⟨c, events, hreaches, hstep, rfl⟩ := Parser.exists_refused_of_run herror
        obtain ⟨symbols, trees, h⟩ := Grammar.exists_stacks_of_reaches hg hreaches
        obtain ⟨_, -, -, rfl⟩ := h.exists_fault hg hstep
        have hall := (hbegins hproductive c hreaches).2
        rwa [hshifted] at hall
      · obtain ⟨-, -, -, ⟨hunknown, -⟩ | ⟨-, -, -, hend⟩⟩ := hrefused hfree 20 e events herror
        · refine absurd ⟨?_, ?_⟩ hunknown
          · exact htoken ▸ Int.le_refl 0
          · exact htoken ▸ Int.ofNat_lt.2 hg.numTerminals_pos
        · have hnot := hend htoken
          rwa [hshifted] at hnot
  · cases hmarks

end FrontEnd
