import FrontEnd.Proofs.Grammar.Expression
import FrontEnd.Proofs.Grammar.Levels

/-!
# Grammars of operators

A definition of operators gives each of them a level, and has the productions of expressions: each
operator between two expressions, and an operand.  It resolves to a grammar in which each operator
and its production bind as the level says.

## Main Definitions

* `GrammarDefinition.DefinesOperators` — a definition of operators
* `Grammar.IsOperators` — a grammar of operators

## Main Statements

* `GrammarDefinition.DefinesOperators.exists_grammar` — a definition of operators resolves to a
  grammar of operators

## Design Notes

The grammar is computed and compared: the table of symbols is that of the tokens with one
nonterminal behind them, and the productions of the grammar are those of a list that is spelled out,
`operatorProductions`.  The checks of the grammar then have nothing to find.
-/

namespace FrontEnd

/-- The productions of a grammar are those of expressions: each operator between two expressions, in
the order of the operators, and an operand.  The operators and their productions bind by their
rank. -/
structure Grammar.IsOperators (g : Grammar) (atom : TokenId) (operators : List TokenId)
    (rank : TokenId → Precedence) : Prop where
  wellFormed : g.WellFormed
  size_productions : g.productions.size = operators.length + 1
  operation : ∀ (k : Nat) (o : TokenId), operators[k]? = some o → g.productions[k]? =
    some (Production.mk 0 [.nonterminal 0, .terminal o, .nonterminal 0] (some (rank o)))
  operand : ∃ precedence, g.productions[operators.length]? =
    some (Production.mk 0 [.terminal atom] precedence)
  precedence? : ∀ o ∈ operators, g.symbols.precedence? o = some (rank o)
  nodup : operators.Nodup
  atom_notMem : atom ∉ operators

/-- The ranks of tokens: the levels of their declarations, counted from one, with the
associativities. -/
def GrammarDefinition.Ranks (d : GrammarDefinition) (levels : List (Associativity × List String))
    (rank : TokenId → Precedence) : Prop :=
  ∀ (n : Nat) associativity names, levels[n]? = some (associativity, names) → ∀ name ∈ names,
    ∀ t, d.tokenId? name = some t → rank t = ⟨n + 1, associativity⟩

/-- A definition of different operators in some levels, with one nonterminal `lhs` and the
productions of expressions for it. -/
structure GrammarDefinition.DefinesOperators (d : GrammarDefinition)
    (levels : List (Associativity × List String)) (lhs atom : String) (names : List String) :
    Prop where
  declares : d.Declares levels
  length_lt : levels.length < 65536
  nodup : names.Nodup
  /-- Each operator is in a level that says how operators associate. -/
  associates : ∀ name ∈ names, ∃ level ∈ levels, name ∈ level.2 ∧ level.1 ≠ .unspecified
  atom_notMem : atom ∉ names
  not_has_lhs : d.tokens.has lhs = false
  productions : d.productions =
    names.map (fun name => ⟨lhs, [lhs, name, lhs], none⟩) ++ [⟨lhs, [atom], none⟩]

/-! ### Tables of symbols

A table that holds names holds them in their order behind the end of the input, each with its value.
Entering names that are new keeps this, and the table of the tokens of a definition is made in this
way. -/

/-- The terminals of a table with their precedences, where there are no nonterminals yet. -/
structure SymbolTable.Holds (table : SymbolTable) (names : List String)
    (values : List (Option Precedence)) : Prop where
  names : table.terminals.names.toList = names
  values : table.terminals.values.toList = values
  nonterminals : table.nonterminals.toList = []

section Symbols

variable {table : SymbolTable} {names : List String} {values : List (Option Precedence)}
  {name : String} {d : GrammarDefinition} {t : TokenId}

/-- A table does not have other names than those it holds. -/
theorem SymbolTable.Holds.indexOf?_eq_none (h : table.Holds names values) (hname : name ∉ names) :
    table.terminals.indexOf? name = none :=
  NameList.indexOf?_eq_none_iff.2 (h.names.symm ▸ hname)

/-- A new terminal is put behind the others. -/
theorem SymbolTable.addTerminal_eq (h : table.terminals.indexOf? name = none) :
    table.addTerminal name = ({ table with terminals := table.terminals.push name none h },
      Int.ofNat table.terminals.size) := by
  have hput : table.terminals.put name none = table.terminals.push name none h := by
    unfold NameTable.put
    split
    · next i hi =>
      rw [h] at hi
      cases hi
    · rfl
  have hindex : (table.terminals.push name none h).indexOf? name = some table.terminals.size := by
    have hpush : (table.terminals.names.push name h).indexOf? name =
        if name = name then some table.terminals.size else table.terminals.indexOf? name :=
      NameList.indexOf?_push
    rwa [if_pos rfl] at hpush
  unfold SymbolTable.addTerminal SymbolTable.findTerminal?
  dsimp only
  rw [hput, hindex]
  rfl

/-- A new terminal gets the next number, and its precedence. -/
theorem SymbolTable.Holds.enter (h : table.Holds names values) (hname : name ∉ names)
    (precedence : Option Precedence) :
    (table.enter (name, precedence)).Holds (names ++ [name]) (values ++ [precedence]) := by
  have hnone := h.indexOf?_eq_none hname
  have hnames : (table.terminals.push name none hnone).names.toList = names ++ [name] := by
    rw [NameTable.toList_names_push, h.names]
  have hvalues : (table.terminals.push name none hnone).values = table.terminals.values.push none :=
    rfl
  unfold SymbolTable.enter
  rw [table.addTerminal_eq hnone]
  cases precedence with
  | none => exact ⟨hnames, by rw [hvalues, Array.toList_push, h.values], h.nonterminals⟩
  | some p =>
    have hneg : ¬ Int.ofNat table.terminals.size < 0 := Int.not_lt.2 (Int.natCast_nonneg _)
    dsimp only
    rw [SymbolTable.setPrecedence, if_neg hneg]
    refine ⟨hnames, ?_, h.nonterminals⟩
    show ((table.terminals.values.push none).setIfInBounds table.terminals.size _).toList = _
    have hsize : table.terminals.size = values.length := by
      rw [← h.values, Array.length_toList, table.terminals.size_values]
      rfl
    rw [Array.toList_setIfInBounds, Array.toList_push, h.values, hsize]
    simp

/-- The tokens are numbered in the order of their declaration, behind the end of the input. -/
theorem holds_tokenSymbols (hd : d.Reachable) :
    d.tokenSymbols.Holds (endName :: d.tokens.names.toList) (none :: d.tokens.values.toList) := by
  have hfold : ∀ (entries : List (String × Option Precedence)) (table : SymbolTable) names values,
      table.Holds names values → (names ++ entries.map Prod.fst).Nodup →
      (entries.foldl SymbolTable.enter table).Holds
        (names ++ entries.map Prod.fst) (values ++ entries.map Prod.snd) := by
    intro entries
    induction entries with
    | nil =>
      intro table names values h _
      simpa using h
    | cons entry entries ih =>
      intro table names values h hnodup
      obtain ⟨name, precedence⟩ := entry
      have hname : name ∉ names := by
        intro hmem
        exact List.disjoint_of_nodup_append hnodup hmem List.mem_cons_self
      have hnext := ih _ _ _ (h.enter hname precedence) (by simpa using hnodup)
      rw [List.append_assoc, List.append_assoc] at hnext
      exact hnext
  have hlength : d.tokens.names.toList.length = d.tokens.values.toList.length := by
    have hnames : d.tokens.names.toList.length = d.tokens.names.size := Array.length_toList
    rw [hnames, Array.length_toList, d.tokens.size_values]
  have hfst : d.tokens.toList.map Prod.fst = d.tokens.names.toList :=
    List.map_fst_zip (Nat.le_of_eq hlength)
  have hsnd : d.tokens.toList.map Prod.snd = d.tokens.values.toList :=
    List.map_snd_zip (Nat.le_of_eq hlength.symm)
  have hinitial : SymbolTable.initial.Holds [endName] [none] :=
    ⟨by decide +kernel, by decide +kernel, rfl⟩
  have hnodup : (endName :: d.tokens.names.toList).Nodup := by
    refine List.nodup_cons.2 ⟨fun hmem => ?_, d.tokens.names.nodup_toList⟩
    have hname := hd.isTokenName_tokens endName hmem
    rw [isTokenName_endName] at hname
    cases hname
  have hall := hfold d.tokens.toList SymbolTable.initial [endName] [none] hinitial
  rw [hfst, hsnd] at hall
  exact hall hnodup

section Terminals

variable (hd : d.Reachable) (hterminals : table.terminals = d.tokenSymbols.terminals)

include hd hterminals

/-- A token has the number that it has been given at its declaration. -/
theorem findTerminal?_eq_tokenId? (hname : isTokenName name = true) :
    table.findTerminal? name = d.tokenId? name := by
  have hnames := (holds_tokenSymbols hd).names
  have hne : name ≠ endName := by
    rintro rfl
    rw [isTokenName_endName] at hname
    cases hname
  rw [SymbolTable.findTerminal?, hterminals, GrammarDefinition.tokenId?]
  cases hindex : d.tokens.indexOf? name with
  | none =>
    have hmem := NameList.indexOf?_eq_none_iff.1 hindex
    have hnone : d.tokenSymbols.terminals.indexOf? name = none := by
      refine NameList.indexOf?_eq_none_iff.2 ?_
      rw [hnames]
      simp [hne, hmem]
    rw [hnone]
    rfl
  | some i =>
    have hget := NameList.indexOf?_eq_some_iff.1 hindex
    rw [NameList.get?_eq] at hget
    have hsome : d.tokenSymbols.terminals.indexOf? name = some (i + 1) := by
      refine NameList.indexOf?_eq_some_iff.2 ?_
      rw [NameList.get?_eq, hnames, List.getElem?_cons_succ, hget]
    rw [hsome]
    rfl

/-- A token has the precedence that has been declared for it. -/
theorem precedence?_eq_get? (ht : d.tokenId? name = some t) :
    table.precedence? t = (d.tokens.get? name).join := by
  obtain ⟨i, hindex, rfl⟩ := Option.map_eq_some_iff.1 ht
  have hneg : ¬ Int.ofNat i + 1 < 0 := by
    have hnonneg := Int.natCast_nonneg i
    exact Int.not_lt.2 (Int.le_add_one hnonneg)
  have hvalues := (holds_tokenSymbols hd).values
  rw [SymbolTable.precedence?, if_neg hneg, hterminals, NameTable.get?, hindex]
  show (d.tokenSymbols.terminals.values[i + 1]?).join = (d.tokens.values[i]?).join
  rw [← Array.getElem?_toList, hvalues, List.getElem?_cons_succ, Array.getElem?_toList]

end Terminals

end Symbols

/-! ### Productions

The productions of operators with the numbers of a table.  Each of them inherits the precedence of
its operator, which is its only terminal, and the operand is a production of its own. -/

/-- What a table makes of the names of operators, of an operand, and of a nonterminal. -/
structure SymbolTable.Resolves (table : SymbolTable) (d : GrammarDefinition)
    (rank : TokenId → Precedence) (lhs atom : String) (operand : TokenId)
    (names : List String) : Prop where
  lhs_terminal : table.findTerminal? lhs = none
  lhs_nonterminal : table.findNonterminal? lhs = some 0
  atom : table.findTerminal? atom = some operand
  operator : ∀ name ∈ names, ∃ t, d.tokenId? name = some t ∧ table.findTerminal? name = some t ∧
    table.precedence? t = some (rank t)

section Productions

variable {table : SymbolTable} {d : GrammarDefinition} {rank : TokenId → Precedence}
  {lhs atom : String} {operand : TokenId} {names : List String}

/-- The productions of operators, with the precedences of the operators, and that of an operand. -/
def operatorProductions (rank : TokenId → Precedence) (operand : TokenId)
    (precedence : Option Precedence) (operators : List TokenId) : List Production :=
  operators.map (fun o => ⟨0, [.nonterminal 0, .terminal o, .nonterminal 0], some (rank o)⟩) ++
    [⟨0, [.terminal operand], precedence⟩]

/-- **The productions of expressions resolve** to those of the operators. -/
theorem SymbolTable.Resolves.resolveProductions_eq
    (h : table.Resolves d rank lhs atom operand names) (log : Log) (id : Nat) :
    resolveProductions table log id
        (names.map (fun name => ⟨lhs, [lhs, name, lhs], none⟩) ++ [⟨lhs, [atom], none⟩]) =
      .ok (operatorProductions rank operand (table.precedence? operand)
        (names.filterMap d.tokenId?), log) := by
  induction names generalizing id with
  | nil =>
    simp [resolveProductions, resolveNames, h.atom, h.lhs_nonterminal, resolvePrecedence,
      lastPrecedence?, operatorProductions, Except.map, Symbol.terminal?]
  | cons name names ih =>
    obtain ⟨t, ht, hterminal, hprecedence⟩ := h.operator name List.mem_cons_self
    have hrest := ih ⟨h.lhs_terminal, h.lhs_nonterminal, h.atom,
      fun n hn => h.operator n (List.mem_cons_of_mem _ hn)⟩ (id + 1)
    have hnames : resolveNames table id [lhs, name, lhs] =
        .ok [.nonterminal 0, .terminal t, .nonterminal 0] := by
      simp [resolveNames, h.lhs_terminal, h.lhs_nonterminal, hterminal, Except.map]
    have hlast : resolvePrecedence table log id [.nonterminal 0, .terminal t, .nonterminal 0] none =
        .ok (some (rank t), log) := by
      simp [resolvePrecedence, lastPrecedence?, Symbol.terminal?, hprecedence]
    rw [List.map_cons, List.cons_append, resolveProductions, hnames]
    dsimp only
    rw [hlast]
    dsimp only
    rw [hrest, h.lhs_nonterminal]
    simp [operatorProductions, ht, Except.map]

/-- The start symbol is the one nonterminal. -/
theorem startSymbol_operatorProductions (precedence : Option Precedence)
    (operators : List TokenId) :
    startSymbol (operatorProductions rank operand precedence operators) = 0 := by
  cases operators <;> rfl

/-- The production of the operand makes the nonterminal productive, and nothing else does. -/
theorem extendProductive_operatorProductions (precedence : Option Precedence)
    (operators : List TokenId) {known : List Nat} (hknown : known = [] ∨ known = [0]) :
    extendProductive (operatorProductions rank operand precedence operators) known = [0] := by
  unfold extendProductive operatorProductions
  induction operators with
  | nil => rcases hknown with rfl | rfl <;> rfl
  | cons o operators ih =>
    rw [List.map_cons, List.cons_append, List.foldl_cons, ← ih]
    rcases hknown with rfl | rfl <;> rfl

/-- **The productions of operators pass the checks** of a grammar: the only nonterminal is the start
symbol, and the production of the operand makes it productive. -/
theorem exists_ofProductions (precedence : Option Precedence) (operators : List TokenId)
    (hcount : table.numNonterminals = 1) (log : Log) :
    ∃ g, Grammar.ofProductions table (operatorProductions rank operand precedence operators) log =
      .ok g := by
  have hstart : startSymbol (operatorProductions rank operand precedence operators) = 0 :=
    startSymbol_operatorProductions precedence operators
  have hextend : ∀ known, known = [] ∨ known = [0] →
      extendProductive (operatorProductions rank operand precedence operators) known = [0] :=
    fun _ hknown => extendProductive_operatorProductions precedence operators hknown
  have hne : (operatorProductions rank operand precedence operators).isEmpty = false := by
    simp [operatorProductions]
  generalize operatorProductions rank operand precedence operators = productions at *
  have hreached : reachable 1 productions = [0] := by
    unfold reachable
    rw [hstart]
    rfl
  have hknown : productive 1 productions = [0] := by
    simp [productive, iterateUntilStable, hextend]
  unfold Grammar.ofProductions
  rw [hne, hcount]
  simp [hreached, hknown, hstart]

end Productions

/-! ### The grammar

All that is needed of the definition is that its tokens are ranked, that they are different, and
that the nonterminal is none of them. -/

/-- Different names have different identifications. -/
theorem GrammarDefinition.tokenId?_inj {d : GrammarDefinition} {name other : String} {t : TokenId}
    (h : d.tokenId? name = some t) (h' : d.tokenId? other = some t) : name = other := by
  obtain ⟨i, hi, rfl⟩ := Option.map_eq_some_iff.1 h
  obtain ⟨j, hj, heq⟩ := Option.map_eq_some_iff.1 h'
  obtain rfl : j = i := by
    have hcast : (j : Int) + 1 = (i : Int) + 1 := heq
    omega
  exact NameList.eq_of_indexOf? hi hj

namespace GrammarDefinition.DefinesOperators

variable {d : GrammarDefinition} {levels : List (Associativity × List String)}
  {lhs atom name : String} {names : List String} {rank : TokenId → Precedence} {operand t : TokenId}

/-- Each operator is a token, and its rank is its level with an associativity that is specified. -/
theorem exists_rank (h : d.DefinesOperators levels lhs atom names) (hrank : d.Ranks levels rank)
    (hname : name ∈ names) :
    ∃ t, d.tokenId? name = some t ∧ d.tokens.get? name = some (some (rank t)) ∧
      ∃ n associativity others, levels[n]? = some (associativity, others) ∧
        associativity ≠ .unspecified ∧ rank t = ⟨n + 1, associativity⟩ := by
  obtain ⟨⟨associativity, others⟩, hlevel, hmem, hspecified⟩ := h.associates name hname
  obtain ⟨n, hn⟩ := List.mem_iff_getElem?.1 hlevel
  have hget := (h.declares.get?_tokens h.length_lt).2 n associativity others hn name hmem
  obtain ⟨i, hi, -⟩ := Option.bind_eq_some_iff.1 hget
  have ht : d.tokenId? name = some (Int.ofNat i + 1) := by
    rw [tokenId?, hi]
    rfl
  have heq := hrank n associativity others hn name hmem _ ht
  exact ⟨_, ht, heq.symm ▸ hget, n, associativity, others, hn, hspecified, heq⟩

/-- The nonterminal is an identifier. -/
theorem isIdentifier_lhs (h : d.DefinesOperators levels lhs atom names) :
    isIdentifier lhs = true := by
  have hmem : (⟨lhs, [atom], none⟩ : NamedProduction) ∈ d.productions := by
    rw [h.productions]
    simp
  exact h.declares.reachable.isIdentifier_lhs _ hmem

theorem isTokenName_atom (h : d.DefinesOperators levels lhs atom names) :
    isTokenName atom = true := by
  have hmem : (⟨lhs, [atom], none⟩ : NamedProduction) ∈ d.productions := by
    rw [h.productions]
    simp
  exact h.declares.reachable.isTokenName _ hmem atom List.mem_cons_self

theorem isTokenName_operator (h : d.DefinesOperators levels lhs atom names)
    (hname : name ∈ names) : isTokenName name = true := by
  have hmem : (⟨lhs, [lhs, name, lhs], none⟩ : NamedProduction) ∈ d.productions := by
    rw [h.productions]
    simp [hname]
  exact h.declares.reachable.isTokenName _ hmem name (by simp)

/-- A table with the terminals of the definition and its nonterminal resolves all names. -/
theorem resolves (h : d.DefinesOperators levels lhs atom names) (hrank : d.Ranks levels rank)
    (hoperand : d.tokenId? atom = some operand) {table : SymbolTable}
    (hterminals : table.terminals = d.tokenSymbols.terminals)
    (hnonterminals : table.nonterminals.toList = [lhs]) :
    table.Resolves d rank lhs atom operand names := by
  have hd := h.declares.reachable
  have hlhs : isTokenName lhs = true := by rw [isTokenName, h.isIdentifier_lhs, Bool.true_or]
  refine ⟨?_, ?_, ?_, ?_⟩
  · rw [findTerminal?_eq_tokenId? hd hterminals hlhs, tokenId?]
    have hnone : d.tokens.indexOf? lhs = none :=
      Option.isNone_iff_eq_none.1 (Option.isSome_eq_false_iff.1 h.not_has_lhs)
    rw [hnone]
    rfl
  · have hindex : table.nonterminals.indexOf? lhs = some 0 := by
      rw [NameList.indexOf?_eq_some_iff, NameList.get?_eq, hnonterminals]
      rfl
    rw [SymbolTable.findNonterminal?, hindex]
    rfl
  · rw [findTerminal?_eq_tokenId? hd hterminals h.isTokenName_atom]
    exact hoperand
  · intro name hname
    obtain ⟨t, ht, hget, -⟩ := h.exists_rank hrank hname
    refine ⟨t, ht, ?_, ?_⟩
    · rw [findTerminal?_eq_tokenId? hd hterminals (h.isTokenName_operator hname)]
      exact ht
    · rw [precedence?_eq_get? hd hterminals ht, hget]
      rfl

/-- **A definition of operators resolves to a grammar of operators.** -/
theorem exists_grammar (h : d.DefinesOperators levels lhs atom names)
    (hrank : d.Ranks levels rank) (hoperand : d.tokenId? atom = some operand) :
    ∃ g, d.resolve = .ok g ∧ g.IsOperators operand (names.filterMap d.tokenId?) rank := by
  have hd := h.declares.reachable
  have hne : d.productions ≠ [] := by simp [h.productions]
  have hlhs : ∀ p ∈ d.productions, p.lhs = lhs := by
    intro p hp
    rw [h.productions] at hp
    rcases List.mem_append.1 hp with hp | hp
    · obtain ⟨name, -, rfl⟩ := List.mem_map.1 hp
      rfl
    · obtain rfl := List.mem_singleton.1 hp
      rfl
  have hhas : ∀ p ∈ d.productions, d.tokens.has p.lhs = false := fun p hp => by
    rw [hlhs p hp]
    exact h.not_has_lhs
  obtain ⟨table, htable⟩ : ∃ table, d.addLhsSymbols d.tokenSymbols d.productions = .ok table :=
    exists_addLhsSymbols_iff.2 hhas
  have hterminals := terminals_addLhsSymbols htable
  have hnonterminals : table.nonterminals.toList = [lhs] := by
    rw [nonterminals_addLhsSymbols htable, (holds_tokenSymbols hd).nonterminals, List.nil_append]
    exact eraseDups_eq_singleton (by simpa using hne) (by simpa using hlhs)
  have hresolves := h.resolves hrank hoperand hterminals hnonterminals
  have hcount : table.numNonterminals = 1 := by
    have hlength := congrArg List.length hnonterminals
    exact hlength
  -- the checks have nothing to find in productions of operators
  obtain ⟨g, hg⟩ : ∃ g, Grammar.ofProductions table (operatorProductions rank operand
      (table.precedence? operand) (names.filterMap d.tokenId?)) Log.empty = .ok g :=
    exists_ofProductions _ _ hcount _
  have hresolve : d.resolve = .ok g := by
    rw [resolve, if_neg (by simpa using hne), htable]
    dsimp only
    rw [h.productions, hresolves.resolveProductions_eq]
    exact hg
  obtain ⟨-, hsymbols, harray, -⟩ := Grammar.eq_of_ofProductions hg
  -- what is left is the list of productions, the ranks, and that no two terminals are the same
  refine ⟨g, hresolve, d.wellFormed_of_resolve hd hresolve, ?_, ?_, ?_, ?_, ?_, ?_⟩
  · rw [harray]
    simp [operatorProductions]
  · intro k o hk
    have hlt := (List.getElem?_eq_some_iff.1 hk).choose
    rw [harray, List.getElem?_toArray, operatorProductions,
      List.getElem?_append_left (by rwa [List.length_map]), List.getElem?_map, hk]
    rfl
  · refine ⟨table.precedence? operand, ?_⟩
    rw [harray, List.getElem?_toArray, operatorProductions,
      List.getElem?_append_right (Nat.le_of_eq (List.length_map _))]
    simp
  · intro o ho
    obtain ⟨name, hname, ht⟩ := List.mem_filterMap.1 ho
    obtain ⟨t, ht', -, hprecedence⟩ := hresolves.operator name hname
    obtain rfl := Option.some.inj (ht.symm.trans ht')
    rw [hsymbols]
    exact hprecedence
  · exact h.nodup.filterMap fun name other t ht ht' => tokenId?_inj ht ht'
  · intro hmem
    obtain ⟨name, hname, ht⟩ := List.mem_filterMap.1 hmem
    exact h.atom_notMem (tokenId?_inj ht hoperand ▸ hname)

/-- The operators of a level associate in one way, which is specified. -/
theorem isRanking (h : d.DefinesOperators levels lhs atom names) (hrank : d.Ranks levels rank)
    {ω : Type} {id : ω → TokenId} (hid : ∀ o, id o ∈ names.filterMap d.tokenId?) :
    IsRanking fun o => rank (id o) := by
  have hlevel : ∀ o, ∃ n associativity others, levels[n]? = some (associativity, others) ∧
      associativity ≠ .unspecified ∧ rank (id o) = ⟨n + 1, associativity⟩ := by
    intro o
    obtain ⟨name, hname, ht⟩ := List.mem_filterMap.1 (hid o)
    obtain ⟨t, ht', -, hlevel⟩ := h.exists_rank hrank hname
    rw [Option.some.inj (ht.symm.trans ht')]
    exact hlevel
  constructor
  · intro o
    obtain ⟨n, associativity, others, -, hspecified, heq⟩ := hlevel o
    rw [heq]
    exact hspecified
  · intro o p hlevels
    obtain ⟨n, associativity, others, hn, -, heq⟩ := hlevel o
    obtain ⟨m, associativity', others', hm, -, heq'⟩ := hlevel p
    rw [heq, heq'] at hlevels ⊢
    obtain rfl : n = m := Nat.succ.inj hlevels
    exact congrArg Prod.fst (Option.some.inj (hn.symm.trans hm))

end GrammarDefinition.DefinesOperators

end FrontEnd
