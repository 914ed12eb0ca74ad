import FrontEnd.Proofs.Grammar.Operators
import FrontEnd.Proofs.Lalr.Reductions

/-!
# Tables for operators

The grammar of operators is ambiguous, and where an operator waits and another one comes next, both
a reduction and a shift are justified.  Everywhere else there is one thing to do.  So the entries
are known in terms of what has been read: operands are shifted and reduced, an operator is shifted
behind the first expression, and behind an operation the ranks of two operators decide.

## Main Definitions

* `AwaitsOperand` — the symbols behind which an operand is awaited

## Main Statements

* `Grammar.IsOperators.action_operand`, `Grammar.IsOperators.action_behind_operand`,
  `Grammar.IsOperators.action_behind_expression`, `Grammar.IsOperators.action_accept`,
  `Grammar.IsOperators.action_behind_operation`, `Grammar.IsOperators.action_end` — the entries

## Design Notes

The items of a state are not listed.  What is justified is found from what is expected after the
symbols that have been read, and these are alternating operands and operators.
-/

namespace FrontEnd

/-- The symbols behind which an operand is awaited: none, or expressions with an operator behind
each of them. -/
inductive AwaitsOperand (operators : List TokenId) : List Symbol → Prop
  | nil : AwaitsOperand operators []
  | operator {symbols : List Symbol} {o : TokenId} : AwaitsOperand operators symbols →
    o ∈ operators → AwaitsOperand operators (symbols ++ [.nonterminal 0, .terminal o])

namespace Grammar

variable {g : Grammar} {atom : TokenId} {operators : List TokenId} {rank : TokenId → Precedence}
  {symbols : List Symbol} {s p k target : Nat} {t o : TokenId}

namespace IsOperators

/-! ### Productions

The productions are the operations, in the order of the operators, and the operand behind them. -/

/-- Each production is one of the operations, or it is the one of the operand. -/
theorem production_cases (h : g.IsOperators atom operators rank) {production : Production}
    (hp : g.productions[p]? = some production) :
    (∃ o, operators[p]? = some o ∧ production =
      ⟨0, [.nonterminal 0, .terminal o, .nonterminal 0], some (rank o)⟩) ∨
    p = operators.length ∧ production.lhs = 0 ∧ production.rhs = [.terminal atom] := by
  have hlt : p < operators.length + 1 :=
    h.size_productions ▸ (Array.getElem?_eq_some_iff.1 hp).choose
  rcases Nat.lt_succ_iff_lt_or_eq.1 hlt with hlt | rfl
  · have ho := List.getElem?_eq_getElem hlt
    exact .inl ⟨_, ho, Option.some.inj (hp.symm.trans (h.operation p _ ho))⟩
  · obtain ⟨precedence, hoperand⟩ := h.operand
    obtain rfl := Option.some.inj (hp.symm.trans hoperand)
    exact .inr ⟨rfl, rfl, rfl⟩

/-- The productions of operators have one nonterminal on the left. -/
theorem lhs_eq (h : g.IsOperators atom operators rank) {production : Production}
    (hp : g.productions[p]? = some production) : production.lhs = 0 := by
  rcases h.production_cases hp with ⟨o, -, rfl⟩ | ⟨-, hlhs, -⟩
  · rfl
  · exact hlhs

/-- The one nonterminal of operators is the start symbol. -/
theorem start_eq (h : g.IsOperators atom operators rank) : g.start = 0 := by
  have hlt := h.wellFormed.size_pos
  have hfirst : g.productions.toList[0]? = some g.productions[0] := by
    rw [Array.getElem?_toList, Array.getElem?_eq_getElem hlt]
  unfold Grammar.start
  cases hlist : g.productions.toList with
  | nil => rfl
  | cons production rest =>
    rw [hlist] at hfirst
    obtain rfl := Option.some.inj hfirst
    exact h.lhs_eq (Array.getElem?_eq_getElem hlt)

/-- Each operator has its operation, with the precedence of its rank. -/
theorem exists_operation (h : g.IsOperators atom operators rank) (ho : o ∈ operators) :
    ∃ k : Nat, operators[k]? = some o ∧ g.productions[k]? =
      some (Production.mk 0 [.nonterminal 0, .terminal o, .nonterminal 0] (some (rank o))) := by
  obtain ⟨k, hk⟩ := List.mem_iff_getElem?.1 ho
  exact ⟨k, hk, h.operation k o hk⟩

/-- No operator is the end of the input. -/
theorem ne_endOfInput (h : g.IsOperators atom operators rank) (ho : o ∈ operators) :
    o ≠ TokenId.endOfInput := by
  obtain ⟨k, -, hk⟩ := h.exists_operation ho
  have hpos := (h.wellFormed.inRange _ (Array.mem_of_getElem? hk) (.terminal o) (by simp)).1
  exact Int.ne_of_gt hpos

/-- Each production begins where an expression does. -/
theorem start_mem_successors (h : g.IsOperators atom operators rank) {i : Item}
    (hnext : g.nextSymbol? i = some (.nonterminal 0)) (hp : p < g.productions.size) :
    Item.start p ∈ g.successors i := by
  have hproduction := Array.getElem?_eq_getElem hp
  exact mem_successors.2 ⟨p, _, hproduction, by rw [hnext, h.lhs_eq hproduction], rfl⟩

/-! ### Where operands are awaited

Behind nothing and behind an operator an operand comes next.  These are the places where items
begin. -/

/-- **Where an operand is awaited an expression begins**, by each production, and each operator or
the end of the input may stand behind it. -/
theorem expected_start (h : g.IsOperators atom operators rank)
    (hawaits : AwaitsOperand operators symbols) (hp : p < g.productions.size)
    (ht : t ∈ TokenId.endOfInput :: operators) : g.Expected symbols (Item.start p) t := by
  induction hawaits generalizing p t with
  | nil =>
    have hdrop := g.drop_accept
    rw [h.start_eq] at hdrop
    have hend : ∀ p < g.productions.size, g.Expected [] (Item.start p) TokenId.endOfInput := by
      intro p hp
      refine Expected.start.carry (h.start_mem_successors (nextSymbol?_of_drop hdrop) hp) ?_
      rw [tail_of_drop hdrop]
      exact .refl
    rcases List.mem_cons.1 ht with rfl | ht
    · exact hend p hp
    · -- the operator stands behind the expression that its own production begins with
      obtain ⟨k, -, hk⟩ := h.exists_operation ht
      have hlt := (Array.getElem?_eq_some_iff.1 hk).choose
      have hdrop := drop_start hk
      refine .first (hend k hlt).viable
        (h.start_mem_successors (nextSymbol?_of_drop hdrop) hp) ?_
      rw [tail_of_drop hdrop]
      exact ⟨[.nonterminal 0], .refl⟩
  | @operator symbols o _ ho ih =>
    obtain ⟨k, -, hk⟩ := h.exists_operation ho
    have hlt := (Array.getElem?_eq_some_iff.1 hk).choose
    have hread : g.Expected (symbols ++ [.nonterminal 0, .terminal o]) ⟨k, 2⟩ t :=
      (ih hlt ht).advance_start hk rfl
    have hdrop : (g.rhsOf k).drop 2 = [.nonterminal 0] := by
      rw [rhsOf_of_getElem? hk]
      rfl
    refine hread.carry (h.start_mem_successors (nextSymbol?_of_drop hdrop) hp) ?_
    rw [tail_of_drop hdrop]
    exact .refl

/-! ### What is justified

For each place there is a list of what can be done there, from the items that are expected. -/

/-- The reductions: of an operation behind its operands, and of an operand. -/
theorem reduce_cases (h : g.IsOperators atom operators rank)
    (hs : g.automaton.stateAfter? symbols = some s)
    (hreduce : g.Justified g.automaton (g.lookaheads g.automaton) s t (.reduce p)) :
    (∃ front o, operators[p]? = some o ∧
      symbols = front ++ [.nonterminal 0, .terminal o, .nonterminal 0]) ∨
    p = operators.length ∧ ∃ front, symbols = front ++ [.terminal atom] := by
  obtain ⟨production, front, hp, hsymbols⟩ := exists_of_justified_reduce h.wellFormed hs hreduce
  rcases h.production_cases hp with ⟨o, ho, rfl⟩ | ⟨hlength, -, hrhs⟩
  · exact .inl ⟨front, o, ho, hsymbols⟩
  · exact .inr ⟨hlength, front, hrhs ▸ hsymbols⟩

/-- Where an operand is awaited, nothing is reduced. -/
theorem not_reduce (h : g.IsOperators atom operators rank)
    (hawaits : AwaitsOperand operators symbols) (hs : g.automaton.stateAfter? symbols = some s)
    (p : Nat) : ¬ g.Justified g.automaton (g.lookaheads g.automaton) s t (.reduce p) := by
  intro hreduce
  have hlast : ∀ x ∈ symbols.getLast?, ∃ o ∈ operators, x = .terminal o := by
    cases hawaits with
    | nil => nofun
    | operator _ ho =>
      intro x hx
      exact ⟨_, ho, by simpa [eq_comm] using hx⟩
  rcases h.reduce_cases hs hreduce with ⟨front, o, -, rfl⟩ | ⟨-, front, rfl⟩
  · obtain ⟨o, -, heq⟩ := hlast (.nonterminal 0) (by simp)
    cases heq
  · obtain ⟨o, ho, heq⟩ := hlast (.terminal atom) (by simp)
    obtain rfl := Symbol.terminal.inj heq
    exact h.atom_notMem ho

/-- Behind the first expression, nothing is reduced. -/
theorem not_reduce_expression (h : g.IsOperators atom operators rank)
    (hs : g.automaton.stateAfter? [.nonterminal 0] = some s) (p : Nat) :
    ¬ g.Justified g.automaton (g.lookaheads g.automaton) s t (.reduce p) := by
  intro hreduce
  rcases h.reduce_cases hs hreduce with ⟨front, o, -, heq⟩ | ⟨-, front, heq⟩
  · have hlength := congrArg List.length heq
    simp at hlength
  · have hlast := congrArg List.getLast? heq
    simp at hlast

/-- Only the production of the operand goes on with it. -/
theorem eq_start_of_nextSymbol? (h : g.IsOperators atom operators rank) {i : Item}
    (hnext : g.nextSymbol? i = some (.terminal atom)) : i = Item.start operators.length := by
  obtain ⟨p, d⟩ := i
  have hget : (g.rhsOf p)[d]? = some (.terminal atom) := hnext
  unfold rhsOf at hget
  split at hget
  · next production hp =>
    rcases h.production_cases hp with ⟨o, ho, rfl⟩ | ⟨rfl, -, hrhs⟩
    · have hmem := List.mem_of_getElem? hget
      have heq : atom = o := by simpa using hmem
      exact absurd (heq ▸ List.mem_of_getElem? ho) h.atom_notMem
    · rw [hrhs] at hget
      have hzero : d = 0 := Nat.lt_one_iff.1 (List.getElem?_eq_some_iff.1 hget).choose
      rw [hzero]
      rfl
  · have hmem := List.mem_of_getElem? hget
    simp at hmem

/-- Behind an operand no item goes on. -/
theorem nextSymbol?_behind_operand (h : g.IsOperators atom operators rank)
    (hs : g.automaton.stateAfter? (symbols ++ [.terminal atom]) = some s) {i : Item}
    (hi : i ∈ g.closure (g.automaton.kernel s)) : g.nextSymbol? i = none := by
  obtain ⟨s', -, htarget⟩ := stateAfter?_append.1 hs
  have hkernel : ∀ j ∈ g.automaton.kernel s, g.nextSymbol? j = none := by
    intro j hj
    obtain ⟨j, -, hnext, rfl⟩ := (g.isAutomaton_automaton.mem_kernel s' _ s htarget j).1 hj
    obtain ⟨precedence, hoperand⟩ := h.operand
    obtain rfl := h.eq_start_of_nextSymbol? hnext
    show (g.rhsOf operators.length)[1]? = none
    rw [rhsOf_of_getElem? hoperand]
    rfl
  -- the closure adds nothing, since nothing begins where no item goes on
  obtain ⟨root, hroot, hpath⟩ := mem_closure_iff.1 hi
  rcases Relation.ReflTransGen.cases_head hpath with rfl | ⟨j, hj, -⟩
  · exact hkernel root hroot
  · obtain ⟨_, _, -, hnext, -⟩ := mem_successors.1 hj
    rw [hkernel root hroot] at hnext
    cases hnext

/-- Behind an operand nothing is shifted. -/
theorem target?_behind_operand (h : g.IsOperators atom operators rank)
    (hs : g.automaton.stateAfter? (symbols ++ [.terminal atom]) = some s) :
    g.automaton.target? s (.terminal t) = none := by
  cases htarget : g.automaton.target? s (.terminal t) with
  | none => rfl
  | some target =>
    obtain ⟨i, hi, hnext⟩ := g.isAutomaton_automaton.exists_next s _ target htarget
    rw [h.nextSymbol?_behind_operand hs hi] at hnext
    cases hnext

/-- An operator can be shifted behind an expression. -/
theorem exists_target (h : g.IsOperators atom operators rank)
    (hawaits : AwaitsOperand operators symbols) (ho : o ∈ operators)
    (hs : g.automaton.stateAfter? (symbols ++ [.nonterminal 0]) = some s) :
    ∃ target, g.automaton.target? s (.terminal o) = some target := by
  have ha := g.isAutomaton_automaton
  obtain ⟨k, -, hk⟩ := h.exists_operation ho
  have hlt := (Array.getElem?_eq_some_iff.1 hk).choose
  have hread : g.Expected (symbols ++ [.nonterminal 0]) ⟨k, 1⟩ TokenId.endOfInput :=
    (h.expected_start hawaits hlt List.mem_cons_self).advance_start hk rfl
  obtain ⟨s', hs', hi⟩ := (viable_iff ha).1 hread.viable
  obtain rfl := Option.some.inj (hs.symm.trans hs')
  have hnext : g.nextSymbol? ⟨k, 1⟩ = some (.terminal o) := by
    unfold nextSymbol?
    rw [rhsOf_of_getElem? hk]
    rfl
  exact ha.exists_target s _ _ (ha.lt_size_of_stateAfter? hs) hi hnext

/-! ### Entries

An entry is justified, so it is one of the things that can be done.  Where there are two of them,
the ranks of the operators decide. -/

/-- Where nothing is reduced, what can be shifted is. -/
theorem action_shift (h : g.IsOperators atom operators rank)
    (hs : g.automaton.stateAfter? symbols = some s)
    (htarget : g.automaton.target? s (.terminal t) = some target)
    (hreduce : ∀ p, ¬ g.Justified g.automaton (g.lookaheads g.automaton) s t (.reduce p)) :
    g.generate.tables.action s t = .shift target := by
  have ha := g.isAutomaton_automaton
  refine action_eq_of_only h.wellFormed (ha.lt_size_of_stateAfter? hs)
    ((mem_concerned ha).2 (.inl ⟨target, htarget⟩)) htarget rfl ?_
  intro other hother hne
  cases other with
  | shift target' => rw [Option.some.inj (htarget.symm.trans hother)]
  | reduce p => exact absurd hother (hreduce p)
  | goto _ => exact hother.elim
  | accept => exact absurd hother.1 (id_ne_of_target? h.wellFormed htarget)
  | error _ => cases hne

/-- **An operand is shifted** where one is awaited. -/
theorem action_operand (h : g.IsOperators atom operators rank)
    (hawaits : AwaitsOperand operators symbols) (hs : g.automaton.stateAfter? symbols = some s) :
    ∃ target, g.generate.tables.action s atom = .shift target := by
  have ha := g.isAutomaton_automaton
  obtain ⟨precedence, hoperand⟩ := h.operand
  have hlt := (Array.getElem?_eq_some_iff.1 hoperand).choose
  have hviable := (h.expected_start hawaits hlt List.mem_cons_self).viable
  obtain ⟨s', hs', hi⟩ := (viable_iff ha).1 hviable
  obtain rfl := Option.some.inj (hs.symm.trans hs')
  obtain ⟨target, htarget⟩ := ha.exists_target s _ _ (ha.lt_size_of_stateAfter? hs) hi
    (nextSymbol?_of_drop (drop_start hoperand))
  exact ⟨target, h.action_shift hs htarget (h.not_reduce hawaits hs)⟩

/-- Where nothing is shifted, what alone can be reduced is. -/
theorem action_reduce (h : g.IsOperators atom operators rank)
    (hs : g.automaton.stateAfter? symbols = some s) {production : Production}
    (hp : g.productions[p]? = some production)
    (hexpected : g.Expected symbols ⟨p, production.rhs.length⟩ t)
    (hshift : g.automaton.target? s (.terminal t) = none)
    (haccept : symbols ≠ [.nonterminal g.start])
    (honly : ∀ q, g.Justified g.automaton (g.lookaheads g.automaton) s t (.reduce q) → q = p) :
    g.generate.tables.action s t = .reduce p := by
  have ha := g.isAutomaton_automaton
  obtain ⟨hjustified, hconcerned⟩ := hexpected.justified_reduce h.wellFormed hp hs
  refine action_eq_of_only h.wellFormed (ha.lt_size_of_stateAfter? hs) hconcerned hjustified rfl ?_
  intro other hother hne
  cases other with
  | shift target => cases hshift.symm.trans hother
  | reduce q => rw [honly q hother]
  | goto _ => exact hother.elim
  | accept => exact absurd (eq_of_justified_accept hs hother) haccept
  | error _ => cases hne

/-- **An operand is reduced**, in front of each operator and of the end. -/
theorem action_behind_operand (h : g.IsOperators atom operators rank)
    (hawaits : AwaitsOperand operators symbols) (ht : t ∈ TokenId.endOfInput :: operators)
    (hs : g.automaton.stateAfter? (symbols ++ [.terminal atom]) = some s) :
    g.generate.tables.action s t = .reduce operators.length := by
  obtain ⟨precedence, hoperand⟩ := h.operand
  have hlt := (Array.getElem?_eq_some_iff.1 hoperand).choose
  refine h.action_reduce hs hoperand
    ((h.expected_start hawaits hlt ht).advance_start hoperand (List.append_nil _).symm)
    (h.target?_behind_operand hs) ?_ ?_
  · intro heq
    have hlast := congrArg List.getLast? heq
    simp at hlast
  intro q hq
  rcases h.reduce_cases hs hq with ⟨front, o, -, heq⟩ | ⟨rfl, -⟩
  · have hlast := congrArg List.getLast? heq
    simp at hlast
  · rfl

/-- **An operator is shifted** behind the first expression. -/
theorem action_behind_expression (h : g.IsOperators atom operators rank) (ht : t ∈ operators)
    (hs : g.automaton.stateAfter? [.nonterminal 0] = some s) :
    ∃ target, g.generate.tables.action s t = .shift target := by
  obtain ⟨target, htarget⟩ := h.exists_target .nil ht hs
  exact ⟨target, h.action_shift hs htarget (h.not_reduce_expression hs)⟩

/-- **The first expression is accepted** at the end. -/
theorem action_accept (h : g.IsOperators atom operators rank)
    (hs : g.automaton.stateAfter? [.nonterminal 0] = some s) :
    g.generate.tables.action s TokenId.endOfInput = .accept := by
  have hstart : g.automaton.stateAfter? [.nonterminal g.start] = some s := h.start_eq.symm ▸ hs
  obtain ⟨hjustified, hconcerned⟩ := justified_accept h.wellFormed hstart
  refine action_eq_of_only h.wellFormed (g.isAutomaton_automaton.lt_size_of_stateAfter? hs)
    hconcerned hjustified rfl ?_
  intro other hother hne
  cases other with
  | shift target => exact absurd rfl (id_ne_of_target? h.wellFormed hother)
  | reduce q => exact absurd hother (h.not_reduce_expression hs q)
  | goto _ => exact hother.elim
  | accept => rfl
  | error _ => cases hne

/-- Where both are justified, the ranks decide between a shift and a reduction. -/
theorem resolveShiftReduce_eq (h : g.IsOperators atom operators rank)
    (hk : operators[k]? = some o) (ht : t ∈ operators) (target : Nat) :
    (g.resolveShiftReduce t target k).1 =
      match (rank o).against (rank t) with
      | .gt => .reduce k
      | .lt => .shift target
      | .eq => .error .nonAssociative := by
  unfold resolveShiftReduce Precedence.against
  rw [h.operation k o hk, h.precedence? t ht]
  dsimp only [Option.bind_some]
  split
  · rfl
  · split
    · rfl
    · cases (rank t).associativity <;> rfl

/-- An operation has been read, and each operator or the end may stand behind it. -/
theorem expected_operation (h : g.IsOperators atom operators rank)
    (hk : operators[k]? = some o) (hawaits : AwaitsOperand operators symbols)
    (ht : t ∈ TokenId.endOfInput :: operators) :
    g.Expected (symbols ++ [.nonterminal 0, .terminal o] ++ [.nonterminal 0]) ⟨k, 3⟩ t := by
  have hp := h.operation k o hk
  have hlt := (Array.getElem?_eq_some_iff.1 hp).choose
  rw [List.append_assoc]
  exact (h.expected_start hawaits hlt ht).advance_start hp (List.append_nil _).symm

section Operation

variable (h : g.IsOperators atom operators rank) (hk : operators[k]? = some o)
  (hs : g.automaton.stateAfter? (symbols ++ [.nonterminal 0, .terminal o] ++ [.nonterminal 0]) =
    some s)

include h hk hs

/-- Behind an operation, no other one is reduced. -/
theorem eq_of_reduce_operation
    (hreduce : g.Justified g.automaton (g.lookaheads g.automaton) s t (.reduce p)) : p = k := by
  rcases h.reduce_cases hs hreduce with ⟨front, o', hp, heq⟩ | ⟨-, front, heq⟩
  · rw [List.append_assoc] at heq
    obtain ⟨-, heq⟩ := List.append_inj' heq rfl
    obtain rfl : o = o' := by simpa using heq
    obtain ⟨hlt, hpo⟩ := List.getElem?_eq_some_iff.1 hp
    obtain ⟨hlt', hko⟩ := List.getElem?_eq_some_iff.1 hk
    exact (List.Nodup.getElem_inj_iff h.nodup).1 (hpo.trans hko.symm)
  · have hlast := congrArg List.getLast? heq
    simp at hlast

variable (hawaits : AwaitsOperand operators symbols)

include hawaits

/-- **An operation is reduced** at the end. -/
theorem action_end : g.generate.tables.action s TokenId.endOfInput = .reduce k := by
  refine h.action_reduce hs (h.operation k o hk)
    (h.expected_operation hk hawaits List.mem_cons_self) ?_ ?_
    fun q hq => h.eq_of_reduce_operation hk hs hq
  · cases htarget : g.automaton.target? s (.terminal TokenId.endOfInput) with
    | none => rfl
    | some target => exact absurd rfl (id_ne_of_target? h.wellFormed htarget)
  · intro heq
    have hlength := congrArg List.length heq
    simp at hlength

/-- **Behind an operation the ranks decide** between its operator and the next one. -/
theorem action_behind_operation (ht : t ∈ operators) :
    ∃ target, g.generate.tables.action s t =
      match (rank o).against (rank t) with
      | .gt => .reduce k
      | .lt => .shift target
      | .eq => .error .nonAssociative := by
  have ha := g.isAutomaton_automaton
  have hp := h.operation k o hk
  have ho := List.mem_of_getElem? hk
  obtain ⟨target, htarget⟩ := h.exists_target (hawaits.operator ho) ht hs
  obtain ⟨hjustified, -⟩ := (h.expected_operation hk hawaits
    (List.mem_cons_of_mem _ ht)).justified_reduce h.wellFormed hp hs
  refine ⟨target, ?_⟩
  rw [action_eq_resolveShiftReduce h.wellFormed (ha.lt_size_of_stateAfter? hs) htarget hjustified
    (fun haccept => h.ne_endOfInput ht haccept.1) fun q hq => h.eq_of_reduce_operation hk hs hq]
  exact h.resolveShiftReduce_eq hk ht target

end Operation

end IsOperators

end Grammar

end FrontEnd
