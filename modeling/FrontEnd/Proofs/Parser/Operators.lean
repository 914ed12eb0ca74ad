import FrontEnd.Proofs.Lalr.Operators
import FrontEnd.Proofs.Parser.Prefixes

/-!
# Parsing of operators

A run over operands with operators between them assembles the only admissible expression, whatever
the operators are.  Its stacks hold the operators that wait, each behind the expression to its left,
and each step compares two operators as the assembly does.

## Main Definitions

* `TokenOf` — the tokens with one of some terminals
* `Expression.tree` — the parse tree of an expression
* `Frames`, `frameSymbols`, `frameTrees` — the operators that wait, and what the stacks hold of them
* `Parser.EndsAs` — a run ends as an assembly

## Main Statements

* `Grammar.Stacks.run_assemble` — a run ends as the assembly does
* `GrammarDefinition.run_operators` — precedence and associativity have their declared meaning

## Design Notes

The run is compared with `Expression.assemble` in pairs of steps.  Where the assembly lets an
operator wait, the run shifts the operator and reduces the operand behind it; where an operator
takes what is behind it, the run reduces its production.  The frames of the assembly are what the
stacks hold, so the comparison needs no invariant besides this correspondence.
-/

namespace FrontEnd

variable {α : Type}

/-- The tokens with one of some terminals. -/
abbrev TokenOf (ids : List TokenId) : Type := {token : Token // token.id ∈ ids}

section Frames

variable {atom : TokenId} {operators : List TokenId}

/-- Operators and operands in turn. -/
def alternate (rest : List (TokenOf operators × TokenOf [atom])) : List Token :=
  rest.flatMap fun z => [z.1.1, z.2.1]

/-- There are two tokens for each operator with its operand. -/
theorem length_alternate (rest : List (TokenOf operators × TokenOf [atom])) :
    (alternate rest).length = 2 * rest.length := by
  induction rest with
  | nil => rfl
  | cons z rest ih =>
    have hcons : (alternate (z :: rest)).length = (alternate rest).length + 2 := rfl
    rw [hcons, ih, List.length_cons]
    rfl

/-- The parse tree of an expression.  The production of an operator has the number of the operator,
and the one of operands comes behind them. -/
def Expression.tree : Expression (TokenOf operators) (TokenOf [atom]) → ParseTree
  | operand x => .node operators.length 0 [.leaf x.1]
  | operation left o right =>
    .node (operators.idxOf o.1.id) 0 [left.tree, .leaf o.1, right.tree]

/-- Operators that wait for the operand to their right, each behind the expression to its left.  The
latest one comes first. -/
abbrev Frames (operators : List TokenId) (atom : TokenId) : Type :=
  List (Expression (TokenOf operators) (TokenOf [atom]) × TokenOf operators)

/-- The symbols of the operators that wait, each behind the expression to its left. -/
def frameSymbols : Frames operators atom → List Symbol
  | [] => []
  | (_, o) :: frames => frameSymbols frames ++ [.nonterminal 0, .terminal o.1.id]

/-- The parse trees of the operators that wait, each behind the expression to its left. -/
def frameTrees : Frames operators atom → List ParseTree
  | [] => []
  | (x, o) :: frames => frameTrees frames ++ [x.tree, .leaf o.1]

/-- Behind the frames an operand is expected. -/
theorem awaitsOperand_frameSymbols (frames : Frames operators atom) :
    AwaitsOperand operators (frameSymbols frames) := by
  induction frames with
  | nil => exact .nil
  | cons f frames ih => exact ih.operator f.2.2

/-- A run ends with the parse tree of an expression, or at an operator that does not associate. -/
def Parser.EndsAs (p : Parser) (s : Semantics α) (bound : Nat) (c : Configuration α) :
    Except (TokenOf operators) (Expression (TokenOf operators) (TokenOf [atom])) → Prop
  | .ok e => p.run s bound c = some ⟨.ok (e.tree.eval s), e.tree.events ++ [.accept]⟩
  | .error o => ∃ e events, p.run s bound c = some ⟨.error e, events⟩ ∧
    e.fault = .nonAssociative ∧ e.token = o.1.id

/-- A run ends as any run that it goes on with. -/
theorem Parser.EndsAs.of_run_eq {p : Parser} {s : Semantics α} {bound bound' : Nat}
    {c c' : Configuration α}
    {result : Except (TokenOf operators) (Expression (TokenOf operators) (TokenOf [atom]))}
    (h : p.EndsAs s bound' c' result) (hrun : p.run s bound c = p.run s bound' c') :
    p.EndsAs s bound c result := by
  cases result with
  | ok e => exact hrun.trans h
  | error o =>
    obtain ⟨e, events, hend, hfault⟩ := h
    exact ⟨e, events, hrun.trans hend, hfault⟩

/-- Behind an expression comes an operator or the end. -/
theorem nextId_alternate_mem (rest : List (TokenOf operators × TokenOf [atom])) :
    Grammar.nextId (alternate rest) ∈ TokenId.endOfInput :: operators := by
  cases rest with
  | nil => exact List.mem_cons_self
  | cons z rest => exact List.mem_cons_of_mem _ z.1.2

theorem getElem?_idxOf (o : TokenOf operators) :
    operators[operators.idxOf o.1.id]? = some o.1.id := by
  have hlt := List.idxOf_lt_length_iff.2 o.2
  rw [List.getElem?_eq_getElem hlt, List.getElem_idxOf]

end Frames

namespace Grammar

open ParseTree Expression

variable {g : Grammar} {atom : TokenId} {operators : List TokenId} {rank : TokenId → Precedence}
  {s : Semantics α} {input : List Token} {symbols front : List Symbol}
  {trees behind children : List ParseTree} {c : Configuration α}
  {frames : Frames operators atom} {x left : Expression (TokenOf operators) (TokenOf [atom])}
  {y : TokenOf [atom]} {o p : TokenOf operators} {rest : List (TokenOf operators × TokenOf [atom])}

theorem id_token_nil
    (hinput : c.input = alternate ([] : List (TokenOf operators × TokenOf [atom]))) :
    c.token.id = TokenId.endOfInput := by
  rw [id_token, hinput]
  rfl

theorem id_token_cons (hinput : c.input = alternate ((o, y) :: rest)) : c.token.id = o.1.id := by
  rw [id_token, hinput]
  rfl

/-- A reduction of a known production makes a node of the latest trees. -/
theorem Stacks.reduce_production (hg : g.WellFormed) {q : Nat} {production : Production}
    (hp : g.productions[q]? = some production)
    (h : g.Stacks s input (front ++ production.rhs) (behind ++ children) c)
    (hlength : children.length = production.rhs.length)
    (haction : g.parser.action c.top c.token.id = .reduce q) :
    ∃ c', g.parser.step s c = .running c' ∧ c'.input = c.input ∧
      g.Stacks s input (front ++ [.nonterminal production.lhs])
        (behind ++ [.node q production.lhs children]) c' := by
  obtain ⟨-, c', production', front', behind', children', hp', hsymbols, htrees, hlength', hstep,
    hinput, -, h'⟩ := h.reduce hg haction
  obtain rfl := Option.some.inj (hp.symm.trans hp')
  obtain rfl := List.append_cancel_right hsymbols
  obtain ⟨rfl, rfl⟩ := List.append_inj' htrees (hlength.trans hlength'.symm)
  exact ⟨c', hstep, hinput, h'⟩

/-- A token that is shifted becomes a leaf. -/
theorem Stacks.shift_token (hg : g.WellFormed) {token : Token} {tokens : List Token} {target : Nat}
    (h : g.Stacks s input symbols trees c) (hinput : c.input = token :: tokens)
    (haction : g.parser.action c.top token.id = .shift target) :
    ∃ c', g.parser.step s c = .running c' ∧ c'.input = tokens ∧
      g.Stacks s input (symbols ++ [.terminal token.id]) (trees ++ [.leaf token]) c' := by
  obtain rfl : c.token = token := by
    rw [Configuration.token, hinput]
    rfl
  exact ⟨_, Parser.step_shift haction, by rw [hinput]; rfl, h.shift hg haction⟩

/-- **An operand is read** in two steps where one is awaited. -/
theorem Stacks.read_operand (h : g.IsOperators atom operators rank)
    (hstacks : g.Stacks s input (frameSymbols frames) (frameTrees frames) c)
    (hinput : c.input = y.1 :: alternate rest) :
    ∃ c', (∀ n, g.parser.run s (n + 2) c = g.parser.run s n c') ∧ c'.input = alternate rest ∧
      g.Stacks s input (frameSymbols frames ++ [.nonterminal 0])
        (frameTrees frames ++ [(operand (ω := TokenOf operators) y).tree]) c' := by
  have hg := h.wellFormed
  have hawaits := awaitsOperand_frameSymbols frames
  have hid : y.1.id = atom := List.mem_singleton.1 y.2
  obtain ⟨target, haction⟩ := h.action_operand hawaits hstacks.stateAfter?
  obtain ⟨c₁, hstep₁, hinput₁, h₁⟩ := hstacks.shift_token hg hinput (hid.symm ▸ haction)
  obtain ⟨precedence, hoperand⟩ := h.operand
  rw [hid] at h₁
  have hnext : c₁.token.id ∈ TokenId.endOfInput :: operators := by
    rw [id_token, hinput₁]
    exact nextId_alternate_mem rest
  obtain ⟨c₂, hstep₂, hinput₂, h₂⟩ := h₁.reduce_production hg hoperand rfl
    (h.action_behind_operand hawaits hnext h₁.stateAfter?)
  refine ⟨c₂, fun n => ?_, hinput₂.trans hinput₁, h₂⟩
  rw [run_succ hstep₁, run_succ hstep₂]

/-- **The next operator is read** with the operand behind it in three steps, when it is shifted. -/
theorem Stacks.read_operator (h : g.IsOperators atom operators rank)
    (hstacks : g.Stacks s input (frameSymbols frames ++ [.nonterminal 0])
      (frameTrees frames ++ [x.tree]) c) (hinput : c.input = alternate ((o, y) :: rest))
    {target : Nat} (haction : g.parser.action c.top o.1.id = .shift target) :
    ∃ c', (∀ n, g.parser.run s (n + 3) c = g.parser.run s n c') ∧ c'.input = alternate rest ∧
      g.Stacks s input (frameSymbols ((x, o) :: frames) ++ [.nonterminal 0])
        (frameTrees ((x, o) :: frames) ++ [(operand (ω := TokenOf operators) y).tree]) c' := by
  obtain ⟨c₁, hstep₁, hinput₁, h₁⟩ := hstacks.shift_token h.wellFormed hinput haction
  rw [List.append_assoc, List.append_assoc] at h₁
  have h₁' : g.Stacks s input (frameSymbols ((x, o) :: frames))
    (frameTrees ((x, o) :: frames)) c₁ := h₁
  obtain ⟨c₂, hrun₂, hinput₂, h₂⟩ := h₁'.read_operand h hinput₁
  exact ⟨c₂, fun n => (run_succ hstep₁).trans (hrun₂ n), hinput₂, h₂⟩

/-- **The latest operator takes what is behind it** in one step, when it is reduced. -/
theorem Stacks.close_operation (h : g.IsOperators atom operators rank)
    (hstacks : g.Stacks s input (frameSymbols ((left, p) :: frames) ++ [.nonterminal 0])
      (frameTrees ((left, p) :: frames) ++ [x.tree]) c)
    (haction : g.parser.action c.top c.token.id = .reduce (operators.idxOf p.1.id)) :
    ∃ c', (∀ n, g.parser.run s (n + 1) c = g.parser.run s n c') ∧ c'.input = c.input ∧
      g.Stacks s input (frameSymbols frames ++ [.nonterminal 0])
        (frameTrees frames ++ [(operation left p x).tree]) c' := by
  have hp := h.operation _ _ (getElem?_idxOf p)
  rw [frameSymbols, frameTrees, List.append_assoc, List.append_assoc] at hstacks
  obtain ⟨c', hstep, hinput, h'⟩ := hstacks.reduce_production h.wellFormed hp rfl haction
  exact ⟨c', fun n => run_succ hstep, hinput, h'⟩

/-- **A run ends as the assembly does**: with the parse tree of the expression, or at the operator
that does not associate. -/
theorem Stacks.run_assemble (h : g.IsOperators atom operators rank)
    (hstacks : g.Stacks s input (frameSymbols frames ++ [.nonterminal 0])
      (frameTrees frames ++ [x.tree]) c) (hinput : c.input = alternate rest) {n : Nat}
    (hn : 4 * rest.length + frames.length < n) :
    g.parser.EndsAs s n c (Expression.assemble (fun o => rank o.1.id) frames x rest) := by
  -- one case for each step of the assembly: closing an operation is one step of the run, and an
  -- operator that waits is three, with the operand behind it
  fun_induction Expression.assemble (fun o : TokenOf operators => rank o.1.id) frames x rest
    generalizing c n with
  | case1 x =>
    obtain ⟨n, rfl⟩ := Nat.exists_eq_add_of_lt hn
    have hid := id_token_nil hinput
    have haction : g.parser.action c.top c.token.id = .accept := by
      rw [hid]
      exact h.action_accept hstacks.stateAfter?
    have hvalues : c.values = [x.tree.eval s] := hstacks.values
    have hevents : c.events.reverse = x.tree.events := hstacks.events.trans (List.append_nil _)
    rw [Parser.EndsAs, Parser.run, Parser.step_accept haction hvalues]
    dsimp only
    rw [List.reverse_cons, hevents]
  | case2 x o y rest ih =>
    obtain ⟨target, haction⟩ := h.action_behind_expression o.2 hstacks.stateAfter?
    obtain ⟨c', hrun, hinput', h'⟩ := hstacks.read_operator h hinput haction
    simp only [List.length_cons, List.length_nil] at hn
    obtain ⟨n, rfl⟩ := Nat.exists_eq_add_of_le' (show 3 ≤ n by omega)
    refine (ih h' hinput' ?_).of_run_eq (hrun n)
    rw [List.length_singleton]
    omega
  | case3 x left p frames ih =>
    have hawaits := awaitsOperand_frameSymbols frames
    have hid := id_token_nil hinput
    have haction : g.parser.action c.top c.token.id = .reduce (operators.idxOf p.1.id) := by
      rw [hid]
      exact h.action_end (getElem?_idxOf p) hstacks.stateAfter? hawaits
    obtain ⟨c', hrun, hinput', h'⟩ := hstacks.close_operation h haction
    obtain ⟨n, rfl⟩ := Nat.exists_eq_add_of_le' (show 1 ≤ n by omega)
    rw [List.length_cons] at hn
    exact (ih h' (hinput'.trans hinput) (by omega)).of_run_eq (hrun n)
  | case4 x left p frames o y rest hgt ih =>
    have hawaits := awaitsOperand_frameSymbols frames
    have hid := id_token_cons hinput
    obtain ⟨target, haction⟩ :=
      h.action_behind_operation (getElem?_idxOf p) hstacks.stateAfter? hawaits o.2
    rw [hgt] at haction
    obtain ⟨c', hrun, hinput', h'⟩ := hstacks.close_operation h (hid ▸ haction)
    obtain ⟨n, rfl⟩ := Nat.exists_eq_add_of_le' (show 1 ≤ n by omega)
    simp only [List.length_cons] at hn ih
    exact (ih h' (hinput'.trans hinput) (by omega)).of_run_eq (hrun n)
  | case5 x left p frames o y rest hlt ih =>
    have hawaits := awaitsOperand_frameSymbols frames
    obtain ⟨target, haction⟩ :=
      h.action_behind_operation (getElem?_idxOf p) hstacks.stateAfter? hawaits o.2
    rw [hlt] at haction
    obtain ⟨c', hrun, hinput', h'⟩ := hstacks.read_operator h hinput haction
    simp only [List.length_cons] at hn ih
    obtain ⟨n, rfl⟩ := Nat.exists_eq_add_of_le' (show 3 ≤ n by omega)
    exact (ih h' hinput' (by omega)).of_run_eq (hrun n)
  | case6 x left p frames o y rest heq =>
    have hawaits := awaitsOperand_frameSymbols frames
    have hid := id_token_cons hinput
    obtain ⟨target, haction⟩ :=
      h.action_behind_operation (getElem?_idxOf p) hstacks.stateAfter? hawaits o.2
    rw [heq] at haction
    obtain ⟨n, rfl⟩ := Nat.exists_eq_add_of_lt hn
    have hend : g.parser.run s (4 * ((o, y) :: rest).length + ((left, p) :: frames).length + n + 1)
        c = some ⟨.error (g.parser.refusal .nonAssociative c.top c.token), c.events.reverse⟩ := by
      rw [Parser.run, Parser.step_error (hid.symm ▸ haction)]
    exact ⟨_, _, hend, rfl, hid⟩

end Grammar

/-- **Precedence and associativity have their declared meaning.**  Of the operands with operators
between them, a parser of operators accepts just those that have an admissible expression.  There is
only one, and the value and the events are those of its parse tree.  The others are refused at an
operator that does not associate. -/
theorem GrammarDefinition.run_operators {d : GrammarDefinition}
    {levels : List (Associativity × List String)} {lhs atom : String} {names : List String}
    {operand : TokenId} {rank : TokenId → Precedence}
    (hd : d.DefinesOperators levels lhs atom names) (hrank : d.Ranks levels rank)
    (hoperand : d.tokenId? atom = some operand) :
    ∃ p, d.buildParser = .ok p ∧ ∀ {α : Type} (s : Semantics α) (first : TokenOf [operand])
      (rest : List (TokenOf (names.filterMap d.tokenId?) × TokenOf [operand])),
      let rankOf := fun o : TokenOf (names.filterMap d.tokenId?) => rank o.1.id
      let tokens := first.1 :: alternate rest
      (∀ e : Expression _ _, e.AdmissibleOver rankOf first rest →
        (∀ e' : Expression _ _, e'.AdmissibleOver rankOf first rest → e' = e) ∧
        ∀ n, 2 * tokens.length < n → p.run s n (Configuration.start α tokens) =
          some ⟨.ok (e.tree.eval s), e.tree.events ++ [.accept]⟩) ∧
      ((¬ ∃ e : Expression _ _, e.AdmissibleOver rankOf first rest) →
        ∃ error events, error.fault = .nonAssociative ∧
          error.token ∈ names.filterMap d.tokenId? ∧
          ∀ n, 2 * tokens.length < n → p.run s n (Configuration.start α tokens) =
            some ⟨.error error, events⟩) := by
  obtain ⟨g, hresolve, hg⟩ := hd.exists_grammar hrank hoperand
  have hbuild : d.buildParser = .ok g.parser := by
    rw [buildParser, hresolve]
    rfl
  refine ⟨g.parser, hbuild, fun {α} s first rest => ?_⟩
  intro rankOf tokens
  have hranking : IsRanking rankOf := hd.isRanking hrank fun o => o.2
  have hlength : tokens.length = 2 * rest.length + 1 := by
    rw [← length_alternate]
    rfl
  let bottom : Frames (names.filterMap d.tokenId?) operand := []
  have hstart : g.Stacks s tokens (frameSymbols bottom) (frameTrees bottom)
    (Configuration.start α tokens) := g.stacks_start s tokens
  obtain ⟨c, hread, hinput, hstacks⟩ := hstart.read_operand hg rfl
  -- the first operand takes two steps, and from there on the run goes as the assembly does
  have hrun : ∀ n, 2 * tokens.length < n →
      g.parser.EndsAs s n (Configuration.start α tokens)
        (Expression.assemble rankOf bottom (.operand first) rest) := by
    intro n hn
    obtain ⟨n, rfl⟩ := Nat.exists_eq_add_of_le' (show 2 ≤ n by omega)
    have hbound : 4 * rest.length + bottom.length < n := by
      rw [List.length_nil]
      omega
    exact (hstacks.run_assemble hg hinput hbound).of_run_eq (hread n)
  cases hassemble : Expression.assemble rankOf bottom (.operand first) rest with
  | ok e =>
    have hover := (Expression.assemble_eq_ok_iff hranking).1 hassemble
    have hunique : ∀ e' : Expression _ _, e'.AdmissibleOver rankOf first rest → e' = e := by
      intro e' he'
      have heq := hassemble.symm.trans ((Expression.assemble_eq_ok_iff hranking).2 he')
      exact (Except.ok.inj heq).symm
    rw [hassemble] at hrun
    refine ⟨fun e' he' => ?_, fun hnone => absurd ⟨e, hover⟩ hnone⟩
    obtain rfl := hunique e' he'
    exact ⟨hunique, hrun⟩
  | error o =>
    rw [hassemble] at hrun
    refine ⟨fun e he => ?_, fun _ => ?_⟩
    · have heq := hassemble.symm.trans ((Expression.assemble_eq_ok_iff hranking).2 he)
      cases heq
    · obtain ⟨error, events, hend, hfault, htoken⟩ := hrun _ (Nat.lt_succ_self _)
      exact ⟨error, events, hfault, htoken.symm ▸ o.2, fun n hn => Parser.run_mono hend hn⟩

/-- Comparisons, which do not associate, of sums and powers. -/
def comparisons : GrammarDefinition :=
  (((((GrammarDefinition.empty.declareTokens "num").2.declarePrecedence .nonAssociative
    "less").2.declarePrecedence .left "plus minus").2.declarePrecedence .right
      "power").2.addProductions "term"
        "term less term | term plus term | term minus term | term power term | num").2

/-- The levels of `comparisons`. -/
def comparisonLevels : List (Associativity × List String) :=
  [(.nonAssociative, ["less"]), (.left, ["plus", "minus"]), (.right, ["power"])]

/-- The ranks of the operators of `comparisons`. -/
def comparisonRank (t : TokenId) : Precedence :=
  if t = 2 then ⟨1, .nonAssociative⟩ else if t = 5 then ⟨3, .right⟩ else ⟨2, .left⟩

/-- The levels of the comparisons are those that have been declared. -/
theorem declares_comparisons : comparisons.Declares comparisonLevels := by
  have hless : words "less" = ["less"] := by decide +kernel
  have hplus : words "plus minus" = ["plus", "minus"] := by decide +kernel
  have hpower : words "power" = ["power"] := by decide +kernel
  have hdeclares := GrammarDefinition.Declares.productions "term"
    "term less term | term plus term | term minus term | term power term | num"
    (.precedence .right "power" (.precedence .left "plus minus"
      (.precedence .nonAssociative "less" (.tokens "num" .empty) rfl (by simp [hless])) rfl
        (by simp [hplus])) rfl (by simp [hpower]))
  rw [hless, hplus, hpower] at hdeclares
  exact hdeclares

/-- Comparisons and sums are operators over numbers. -/
theorem definesOperators_comparisons :
    comparisons.DefinesOperators comparisonLevels "term" "num"
      ["less", "plus", "minus", "power"] where
  declares := declares_comparisons
  length_lt := by decide
  nodup := by decide
  associates := by decide
  atom_notMem := by decide
  not_has_lhs := by decide +kernel
  productions := by decide +kernel

/-- The ranks of these operators are those of their levels. -/
theorem ranks_comparisons : comparisons.Ranks comparisonLevels comparisonRank := by
  have hall : ∀ n < comparisonLevels.length, ∀ level ∈ comparisonLevels[n]?, ∀ name ∈ level.2,
      ∀ t ∈ comparisons.tokenId? name, comparisonRank t = ⟨n + 1, level.1⟩ := by decide +kernel
  intro n associativity names hn name hname t ht
  exact hall n (List.getElem?_eq_some_iff.1 hn).choose _ hn name hname t ht

/-- A token with a value. -/
def valued (t : TokenId) (value : Nat) : Token := ⟨t, value, 0, 0, 0, []⟩

/-- A sum is reduced before it is compared, and a comparison is not compared again. -/
theorem GrammarDefinition.run_operators_comparisons :
    ∃ p, comparisons.buildParser = .ok p ∧
      (∃ events, events.filterMap Event.reduced? = [4, 4, 1, 4, 0] ∧ ∀ n, 10 < n →
        p.run adding n (Configuration.start Nat
          [valued 1 1, valued 3 0, valued 1 2, valued 2 0, valued 1 4]) = some ⟨.ok 7, events⟩) ∧
      ∃ error events, error.fault = .nonAssociative ∧ ∀ n, 10 < n →
        p.run adding n (Configuration.start Nat
          [valued 1 1, valued 2 0, valued 1 2, valued 2 0, valued 1 4]) =
            some ⟨.error error, events⟩ := by
  have hoperand : comparisons.tokenId? "num" = some 1 := by decide +kernel
  have hoperators : ["less", "plus", "minus", "power"].filterMap comparisons.tokenId? =
      [2, 3, 4, 5] := by decide +kernel
  have hall := run_operators definesOperators_comparisons ranks_comparisons hoperand
  rw [hoperators] at hall
  obtain ⟨p, hbuild, hp⟩ := hall
  let num (value : Nat) : TokenOf [1] := ⟨valued 1 value, List.mem_singleton_self _⟩
  let less : TokenOf [2, 3, 4, 5] := ⟨valued 2 0, by decide⟩
  let plus : TokenOf [2, 3, 4, 5] := ⟨valued 3 0, by decide⟩
  refine ⟨p, hbuild, ?_, ?_⟩
  · let e : Expression (TokenOf [2, 3, 4, 5]) (TokenOf [1]) := .operation
      (.operation (.operand (num 1)) plus (.operand (num 2))) less (.operand (num 4))
    have hover : e.AdmissibleOver (fun o => comparisonRank o.1.id) (num 1)
        [(plus, num 2), (less, num 4)] := by
      refine ⟨⟨?_, nofun, ⟨nofun, nofun, trivial, trivial⟩, trivial⟩, rfl, rfl⟩
      rintro p ⟨⟩
      exact .inl (by decide)
    obtain ⟨-, hrun⟩ := (hp adding (num 1) [(plus, num 2), (less, num 4)]).1 e hover
    exact ⟨_, by decide, hrun⟩
  · have hnone : ¬ ∃ e : Expression (TokenOf [2, 3, 4, 5]) (TokenOf [1]),
        e.AdmissibleOver (fun o => comparisonRank o.1.id) (num 1)
          [(less, num 2), (less, num 4)] := by
      rintro ⟨e, he⟩
      have hranking : IsRanking fun o : TokenOf [2, 3, 4, 5] => comparisonRank o.1.id := by
        refine definesOperators_comparisons.isRanking ranks_comparisons fun o => ?_
        rw [hoperators]
        exact o.2
      have hassemble := (Expression.assemble_eq_ok_iff hranking).2 he
      rw [Expression.assemble, Expression.assemble] at hassemble
      cases hassemble
    obtain ⟨error, events, hfault, -, hrun⟩ :=
      (hp adding (num 1) [(less, num 2), (less, num 4)]).2 hnone
    exact ⟨error, events, hfault, hrun⟩

end FrontEnd
