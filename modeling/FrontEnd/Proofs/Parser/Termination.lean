import FrontEnd.Proofs.Lalr.Reductions
import FrontEnd.Proofs.Parser.Soundness

/-!
# Termination of parsing

Without conflicts, every run ends, whatever the tokens are.  A shift leaves fewer tokens, and in
front of the next token reductions come to an end.

## Main Statements

* `Grammar.Stacks.exists_end` — a run ends from each of its configurations
* `GrammarDefinition.exists_run` — every run ends, and reductions end in front of each terminal

## Design Notes

That reductions come to an end in front of one terminal is a property of the tables, and it is what
conflicts can break.  A run adds that each shift leaves fewer tokens.  So the induction is nested:
on the number of tokens that are left, and for one such number on the reductions in front of the
next token.
-/

namespace FrontEnd

variable {α : Type}

/-- A larger bound does not change the end of a run. -/
theorem Parser.run_mono {p : Parser} {s : Semantics α} {bound n : Nat} {c : Configuration α}
    {run : Run α} (hrun : p.run s bound c = some run) (hle : bound ≤ n) :
    p.run s n c = some run := by
  induction bound generalizing n c with
  | zero => cases hrun
  | succ bound ih =>
    obtain ⟨n, rfl⟩ := Nat.exists_eq_add_of_le' (Nat.lt_of_lt_of_le (Nat.succ_pos bound) hle)
    unfold Parser.run at hrun ⊢
    cases hstep : p.step s c with
    | running c' =>
      rw [hstep] at hrun
      exact ih hrun (Nat.le_of_succ_le_succ hle)
    | accepted value events =>
      rw [hstep] at hrun
      exact hrun
    | refused e events =>
      rw [hstep] at hrun
      exact hrun

/-- A run ends when it ends behind the next step. -/
theorem Parser.exists_run_of_step {p : Parser} {s : Semantics α} {c : Configuration α}
    (h : ∀ c', p.step s c = .running c' → ∃ bound run, p.run s bound c' = some run) :
    ∃ bound run, p.run s bound c = some run := by
  cases hstep : p.step s c with
  | running c' =>
    obtain ⟨bound, run, hrun⟩ := h c' hstep
    exact ⟨bound + 1, run, by rw [Parser.run, hstep]; exact hrun⟩
  | accepted value events => exact ⟨1, ⟨.ok value, events.reverse⟩, by rw [Parser.run, hstep]⟩
  | refused e events => exact ⟨1, ⟨.error e, events.reverse⟩, by rw [Parser.run, hstep]⟩

namespace Grammar

variable {g : Grammar} {s : Semantics α} {input : List Token} {symbols : List Symbol}
  {trees : List ParseTree} {c : Configuration α}

/-- The symbols on the stacks lead the automaton to the state on top. -/
theorem Stacks.stateAfter? (h : g.Stacks s input symbols trees c) :
    g.automaton.stateAfter? symbols = some c.top := by
  obtain ⟨rest, hstates⟩ := h.exists_states
  have hpath := h.path
  rw [hstates] at hpath
  rw [← List.reverse_reverse symbols]
  exact stateAfter?_of_path hpath

/-- A step that goes on shifts or reduces. -/
theorem Stacks.action_of_running (h : g.Stacks s input symbols trees c) (hg : g.WellFormed)
    {c' : Configuration α} (hstep : g.parser.step s c = .running c') :
    (∃ target, g.parser.action c.top c.token.id = .shift target) ∨
      ∃ q, g.parser.action c.top c.token.id = .reduce q := by
  cases haction : g.parser.action c.top c.token.id with
  | shift target => exact .inl ⟨target, rfl⟩
  | reduce q => exact .inr ⟨q, rfl⟩
  | accept =>
    obtain ⟨tree, -, hvalues, -⟩ := h.accept hg haction
    rw [Parser.step_accept haction hvalues] at hstep
    cases hstep
  | goto target =>
    have hproceeds := h.proceeds hg
    rw [haction] at hproceeds
    exact hproceeds.elim
  | error fault =>
    rw [Parser.step_error haction] at hstep
    cases hstep

/-- **What a step that goes on does**: it shifts the next token, or it reduces in front of it. -/
theorem Stacks.running_cases (h : g.Stacks s input symbols trees c) (hg : g.WellFormed)
    {c' : Configuration α} (hstep : g.parser.step s c = .running c') :
    (∃ symbols' trees', g.Stacks s input symbols' trees' c' ∧ c.input = c.token :: c'.input) ∨
    (∃ symbols' trees', g.Stacks s input symbols' trees' c' ∧ c'.input = c.input ∧
      c'.token = c.token ∧ g.Reduces c.token.id symbols symbols') := by
  rcases h.action_of_running hg hstep with ⟨target, haction⟩ | ⟨q, haction⟩
  · rw [Parser.step_shift haction] at hstep
    obtain rfl := StepResult.running.inj hstep
    exact .inl ⟨_, _, h.shift hg haction, (h.exists_input hg haction).1⟩
  · obtain ⟨-, after, production, front, behind, children, hq, rfl, -, -, hstep', hinput, hposition,
      h'⟩ := h.reduce hg haction
    obtain rfl := StepResult.running.inj (hstep'.symm.trans hstep)
    refine .inr ⟨_, _, h', hinput, ?_, q, c.top, production, front, hq, rfl, rfl,
      h.stateAfter?, haction⟩
    unfold Configuration.token
    rw [hinput, hposition]

/-- **A run ends from each of its configurations.** -/
theorem Stacks.exists_end (hg : g.WellFormed) (hfree : g.ConflictFree)
    (h : g.Stacks s input symbols trees c) :
    ∃ bound run, g.parser.run s bound c = some run := by
  -- on the number of tokens that are left, and for each of them on the reductions in front of it
  induction hleft : c.input.length using Nat.strongRecOn generalizing symbols trees c with
  | ind n ih =>
    have hsettles := settles hg hfree c.token.id symbols
    generalize htoken : c.token.id = t at hsettles
    induction hsettles generalizing trees c with
    | intro symbols _ ihsteps =>
      refine Parser.exists_run_of_step fun c' hstep => ?_
      rcases h.running_cases hg hstep with ⟨symbols', trees', h', hinput⟩ |
        ⟨symbols', trees', h', hinput, htoken', hreduces⟩
      · have hlt : c'.input.length < n := by
          rw [← hleft, hinput]
          exact Nat.lt_succ_self _
        exact ih _ hlt h' rfl
      · exact ihsteps _ (htoken ▸ hreduces) h' (hinput ▸ hleft) (htoken' ▸ htoken)

end Grammar

/-- **Termination of parsing.**  Without conflicts, every run ends, whatever the tokens are, and in
front of no terminal are there reductions without end. -/
theorem GrammarDefinition.exists_run {d : GrammarDefinition} {p : Parser} {g : Grammar}
    (hd : d.Reachable) (hbuild : d.buildParser = .ok p) (hresolve : d.resolve = .ok g)
    (hfree : g.ConflictFree) (s : Semantics α) (tokens : List Token) :
    (∃ bound run, ∀ n, bound ≤ n → p.run s n (Configuration.start α tokens) = some run) ∧
      ∀ t, WellFounded fun after before => g.Reduces t before after := by
  have hg := d.wellFormed_of_resolve hd hresolve
  obtain rfl := eq_parser_of_buildParser hbuild hresolve
  obtain ⟨bound, run, hrun⟩ := (g.stacks_start s tokens).exists_end hg hfree
  exact ⟨⟨bound, run, fun n hle => Parser.run_mono hrun hle⟩,
    fun t => ⟨fun symbols => Grammar.settles hg hfree t symbols⟩⟩

/-- A name behind any number of marks, each of which is reduced twice. -/
def marks : GrammarDefinition :=
  (((((GrammarDefinition.empty.declareTokens "mark name").2.addProductions "marked"
    "marks name").2.addProductions "marks" "marks one | %empty").2.addProductions "one"
      "sign").2.addProductions "sign" "mark").2

/-- The run over two marks without a name ends. -/
theorem GrammarDefinition.exists_run_marks :
    ∃ (p : Parser) (g : Grammar), marks.buildParser = .ok p ∧ marks.resolve = .ok g ∧
      g.ConflictFree ∧
      (∃ bound run, ∀ n, bound ≤ n →
        p.run Semantics.trivial n
          (Configuration.start Unit [⟨1, 0, 0, 1, 0, []⟩, ⟨1, 0, 1, 2, 0, []⟩]) = some run) ∧
      ∀ t, WellFounded fun after before => g.Reduces t before after := by
  have hmarks : (match marks.resolve with
      | .ok g => decide g.ConflictFree
      | .error _ => false) = true := by decide +kernel
  have hd : marks.Reachable :=
    .productions _ _ (.productions _ _ (.productions _ _ (.productions _ _ (.tokens _ .empty))))
  split at hmarks
  · next g hresolve =>
    have hfree := of_decide_eq_true hmarks
    have hbuild : marks.buildParser = .ok g.parser := by
      rw [buildParser, hresolve]
      rfl
    exact ⟨g.parser, g, hbuild, hresolve, hfree,
      exists_run hd hbuild hresolve hfree Semantics.trivial _⟩
  · cases hmarks

end FrontEnd
