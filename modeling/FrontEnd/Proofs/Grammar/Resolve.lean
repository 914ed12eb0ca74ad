import FrontEnd.Grammar.Definition
import FrontEnd.Proofs.Lists
import FrontEnd.Proofs.Names
import Mathlib.Data.List.Basic

/-!
# Resolved grammars

What a grammar definition guarantees about the grammar that it resolves to: all symbols have
numbers in their range, and the end of the input occurs in no production.

## Main Definitions

* `GrammarDefinition.Reachable` — a definition that the operations have built
* `Grammar.WellFormed` — the numbers of all symbols are in their range

## Main Statements

* `GrammarDefinition.wellFormed_of_resolve` — a definition resolves to a well-formed grammar only

## Design Notes

The bounds of a grammar are followed through the stages that resolve it.  The end of the input is
the first terminal of every table on the way, `SymbolTable.EndFirst`, and no name in a production is
its name; so no production contains it.  A name that has been found is in range because it has been
found.
-/

namespace FrontEnd

/-- A definition that the operations have built, whether they have failed or not. -/
inductive GrammarDefinition.Reachable : GrammarDefinition → Prop
  | empty : Reachable empty
  | tokens {d : GrammarDefinition} (text : String) :
    Reachable d → Reachable (d.declareTokens text).2
  | precedence {d : GrammarDefinition} (associativity : Associativity) (text : String) :
    Reachable d → Reachable (d.declarePrecedence associativity text).2
  | productions {d : GrammarDefinition} (lhs rhs : String) :
    Reachable d → Reachable (d.addProductions lhs rhs).2

/-- A symbol of a right-hand side: a terminal behind the end of the input, or a nonterminal, with a
number in the range. -/
def Grammar.InRange (g : Grammar) : Symbol → Prop
  | .terminal t => 0 < t ∧ t < g.numTerminals
  | .nonterminal v => v < g.numNonterminals

/-- There are productions and a number for the end of the input, the numbers of all symbols are in
their range, and the first sets are those of the productions. -/
structure Grammar.WellFormed (g : Grammar) : Prop where
  size_pos : 0 < g.productions.size
  numTerminals_pos : 0 < g.numTerminals
  lhs_lt : ∀ p ∈ g.productions, p.lhs < g.numNonterminals
  inRange : ∀ p ∈ g.productions, ∀ s ∈ p.rhs, g.InRange s
  first_eq : g.first = firstTable g.numNonterminals g.productions.toList

/-- The start symbol is a nonterminal of the grammar. -/
theorem Grammar.WellFormed.start_lt {g : Grammar} (h : g.WellFormed) :
    g.start < g.numNonterminals := by
  have hpos := h.size_pos
  have hlt := h.lhs_lt
  rw [← Array.length_toList] at hpos
  unfold Grammar.start
  cases hlist : g.productions.toList with
  | nil =>
    rw [hlist] at hpos
    cases hpos
  | cons p rest => exact hlt p (Array.mem_toList_iff.1 (by rw [hlist]; exact List.mem_cons_self))

/-! ### Names in productions

The name of the end of the input is not a word that an operation accepts. -/

theorem isTokenName_endName : isTokenName endName = false := by decide

/-- The names that have been read are names of tokens. -/
theorem isTokenName_of_readAlternatives {lhs : String} {names : List String} {a : Alternative}
    {alternatives : List NamedProduction}
    (ha : ∀ n ∈ (a.production lhs).names, isTokenName n = true)
    (h : readAlternatives lhs names a = .ok alternatives) :
    ∀ p ∈ alternatives, ∀ n ∈ p.names, isTokenName n = true := by
  have hmem : ∀ (a : Alternative) n,
      n ∈ (a.production lhs).names ↔ n ∈ a.rhs ∨ a.precedence = some n := by
    simp [NamedProduction.names, Alternative.production]
  fun_induction readAlternatives lhs names a generalizing alternatives with
  | case1 a =>
    obtain rfl := Except.ok.inj h
    intro p hp
    obtain rfl := List.mem_singleton.1 hp
    exact ha
  | case2 rest a ih =>
    obtain ⟨others, hothers, rfl⟩ := exists_of_map_eq_ok h
    have hstart : ∀ n ∈ (Alternative.start.production lhs).names, isTokenName n = true := by
      simp [hmem, Alternative.start]
    exact List.forall_mem_cons.2 ⟨ha, ih hstart hothers⟩
  | case3 rest a _ _ ih => exact ih ha h
  | case7 a token rest _ htoken _ _ ih =>
    refine ih ?_ h
    intro n hn
    rcases (hmem _ n).1 hn with hn | hn
    · exact ha n ((hmem a n).2 (.inl hn))
    · exact Option.some.inj hn ▸ htoken
  | case11 name rest a _ _ _ _ _ hname ih =>
    refine ih ?_ h
    intro n hn
    rcases (hmem _ n).1 hn with hn | hn
    · rcases List.mem_append.1 hn with hn | hn
      · exact ha n ((hmem a n).2 (.inl hn))
      · exact List.mem_singleton.1 hn ▸ hname
    · exact ha n ((hmem a n).2 (.inr hn))
  | _ => cases h

/-- What holds of all alternatives that are read holds of the productions of a definition. -/
theorem GrammarDefinition.Reachable.forall_productions {d : GrammarDefinition} (h : d.Reachable)
    {P : NamedProduction → Prop}
    (hread : ∀ lhs names alternatives, isIdentifier lhs = true →
      readAlternatives lhs names Alternative.start = .ok alternatives → ∀ p ∈ alternatives, P p) :
    ∀ p ∈ d.productions, P p := by
  induction h with
  | empty => simp [GrammarDefinition.empty]
  | tokens text _ ih =>
    unfold declareTokens
    dsimp only
    split <;> exact ih
  | precedence associativity text _ ih =>
    unfold declarePrecedence
    dsimp only
    split
    · exact ih
    · split <;> exact ih
  | productions lhs rhs _ ih =>
    unfold addProductions
    split
    · exact ih
    · next hlhs =>
      split
      · exact ih
      · next alternatives halternatives =>
        intro p hp
        rcases List.mem_append.1 hp with hp | hp
        · exact ih p hp
        · exact hread lhs _ _ (by simpa using hlhs) halternatives p hp

theorem GrammarDefinition.Reachable.isTokenName_names {d : GrammarDefinition} (h : d.Reachable) :
    ∀ p ∈ d.productions, ∀ n ∈ p.names, isTokenName n = true := by
  refine h.forall_productions fun lhs names alternatives _ halternatives => ?_
  exact isTokenName_of_readAlternatives
    (by simp [NamedProduction.names, Alternative.production, Alternative.start]) halternatives

/-- The symbols of all productions have names of tokens, whether they are tokens or not. -/
theorem GrammarDefinition.Reachable.isTokenName {d : GrammarDefinition} (h : d.Reachable) :
    ∀ p ∈ d.productions, ∀ n ∈ p.rhs, FrontEnd.isTokenName n = true :=
  fun p hp n hn => h.isTokenName_names p hp n (List.mem_append_left _ hn)

/-! ### Symbols

Tables of symbols are made in two stages, tokens first and left-hand sides behind them.  The lemmas
here say what each operation keeps and what it adds, so that the stages are folds over them. -/

/-- The end of the input is the first terminal. -/
def SymbolTable.EndFirst (table : SymbolTable) : Prop :=
  table.terminals.names.get? 0 = some endName

theorem SymbolTable.EndFirst.addTerminal {table : SymbolTable} (h : table.EndFirst)
    (name : String) : (table.addTerminal name).1.EndFirst := NameTable.get?_names_put h

theorem SymbolTable.EndFirst.setPrecedence {table : SymbolTable} (h : table.EndFirst)
    (t : TokenId) (precedence : Precedence) : (table.setPrecedence t precedence).EndFirst := by
  unfold SymbolTable.setPrecedence
  split <;> exact h

theorem endFirst_initial : SymbolTable.initial.EndFirst := by
  unfold SymbolTable.EndFirst
  decide +kernel

/-- A table with a token, which has its precedence if there is one. -/
def SymbolTable.enter (table : SymbolTable) (token : String × Option Precedence) : SymbolTable :=
  let (table, t) := table.addTerminal token.1
  match token.2 with
  | some p => table.setPrecedence t p
  | none => table

/-- The tokens of a definition are entered in their order. -/
theorem GrammarDefinition.tokenSymbols_eq (d : GrammarDefinition) :
    d.tokenSymbols = d.tokens.toList.foldl SymbolTable.enter SymbolTable.initial := rfl

theorem SymbolTable.EndFirst.enter {table : SymbolTable} (h : table.EndFirst)
    (token : String × Option Precedence) : (table.enter token).EndFirst := by
  obtain ⟨name, precedence⟩ := token
  cases precedence with
  | none => exact h.addTerminal name
  | some p => exact (h.addTerminal name).setPrecedence _ p

theorem endFirst_tokenSymbols (d : GrammarDefinition) : d.tokenSymbols.EndFirst := by
  rw [d.tokenSymbols_eq]
  exact List.foldlRecOn _ _ endFirst_initial fun _ h token _ => h.enter token

theorem SymbolTable.EndFirst.addNonterminal {table : SymbolTable} (h : table.EndFirst)
    (name : String) : (table.addNonterminal name).1.EndFirst := by
  unfold SymbolTable.addNonterminal
  split <;> exact h

/-- Entering the left-hand sides keeps the end of the input in front. -/
theorem endFirst_addLhsSymbols {d : GrammarDefinition} {productions : List NamedProduction}
    {table table' : SymbolTable} (htable : table.EndFirst)
    (h : d.addLhsSymbols table productions = .ok table') : table'.EndFirst := by
  induction productions generalizing table with
  | nil =>
    obtain rfl := Except.ok.inj h
    exact htable
  | cons p productions ih =>
    unfold GrammarDefinition.addLhsSymbols at h
    split at h
    · cases h
    · exact ih (htable.addNonterminal p.lhs) h

/-- Entering the left-hand sides keeps the terminals. -/
theorem terminals_addLhsSymbols {d : GrammarDefinition} {productions : List NamedProduction}
    {table table' : SymbolTable} (h : d.addLhsSymbols table productions = .ok table') :
    table'.terminals = table.terminals := by
  induction productions generalizing table with
  | nil => rw [Except.ok.inj h]
  | cons p productions ih =>
    unfold GrammarDefinition.addLhsSymbols at h
    split at h
    · cases h
    · refine (ih h).trans ?_
      unfold SymbolTable.addNonterminal
      split <;> rfl

/-- A nonterminal is entered behind the others, unless it is there. -/
theorem SymbolTable.toList_addNonterminal (table : SymbolTable) (name : String) :
    (table.addNonterminal name).1.nonterminals.toList =
      (table.nonterminals.toList ++ [name]).eraseDups := by
  have hnodup := table.nonterminals.nodup_toList
  unfold addNonterminal findNonterminal?
  cases hindex : table.nonterminals.indexOf? name with
  | some i =>
    have hmem : name ∈ table.nonterminals.toList := by
      rw [NameList.indexOf?_eq_some_iff, NameList.get?_eq] at hindex
      exact List.mem_of_getElem? hindex
    rw [eraseDups_append_cons_of_mem hmem, List.append_nil, eraseDups_of_nodup hnodup]
    rfl
  | none =>
    have hnot := NameList.indexOf?_eq_none_iff.1 hindex
    have hlist : (table.nonterminals.add name).toList = table.nonterminals.toList ++ [name] := by
      rw [NameList.toList_add, if_neg hnot]
    rw [← hlist, eraseDups_of_nodup (NameList.nodup_toList _)]
    rfl

/-- Each left-hand side becomes a nonterminal. -/
theorem nonterminals_addLhsSymbols {d : GrammarDefinition} {productions : List NamedProduction}
    {table table' : SymbolTable} (h : d.addLhsSymbols table productions = .ok table') :
    table'.nonterminals.toList =
      (table.nonterminals.toList ++ productions.map NamedProduction.lhs).eraseDups := by
  induction productions generalizing table with
  | nil =>
    obtain rfl := Except.ok.inj h
    rw [List.map_nil, List.append_nil, eraseDups_of_nodup table.nonterminals.nodup_toList]
  | cons p productions ih =>
    unfold GrammarDefinition.addLhsSymbols at h
    split at h
    · cases h
    · rw [ih h, table.toList_addNonterminal, eraseDups_append_left, List.append_assoc]
      rfl

/-- There is a table when no left-hand side is a token. -/
theorem exists_addLhsSymbols_iff {d : GrammarDefinition} {productions : List NamedProduction}
    {table : SymbolTable} : (∃ table', d.addLhsSymbols table productions = .ok table') ↔
      ∀ p ∈ productions, d.tokens.has p.lhs = false := by
  induction productions generalizing table with
  | nil => simp [GrammarDefinition.addLhsSymbols]
  | cons p productions ih =>
    rw [GrammarDefinition.addLhsSymbols, List.forall_mem_cons]
    split
    · next hhas => simp [hhas]
    · next hhas => rw [ih, and_iff_right (Bool.eq_false_iff.2 hhas)]

/-- There is a nonterminal where there is a production. -/
theorem numNonterminals_pos_of_addLhsSymbols {d : GrammarDefinition}
    {productions : List NamedProduction} {table table' : SymbolTable} (hne : productions ≠ [])
    (h : d.addLhsSymbols table productions = .ok table') : 0 < table'.numNonterminals := by
  have hnonterminals := nonterminals_addLhsSymbols h
  obtain ⟨p, hp⟩ := List.exists_mem_of_ne_nil _ hne
  have hmem : p.lhs ∈ table'.nonterminals.toList := by
    rw [hnonterminals, List.mem_eraseDups]
    exact List.mem_append_right _ (List.mem_map_of_mem hp)
  exact List.length_pos_of_mem hmem

/-! ### Productions

Names that have been found have numbers in range, and nothing else enters a production. -/

/-- The number of a symbol that a table knows is in its range. -/
def SymbolTable.InRange (table : SymbolTable) : Symbol → Prop
  | .terminal t => 0 < t ∧ t < table.numTerminals
  | .nonterminal v => v < table.numNonterminals

/-- The number of a nonterminal that has been found is in range. -/
theorem lt_of_findNonterminal? {table : SymbolTable} {name : String} {v : Nat}
    (h : table.findNonterminal? name = some v) : v < table.numNonterminals := by
  obtain ⟨i, hi, rfl⟩ := Option.map_eq_some_iff.1 h
  exact Nat.lt_of_le_of_lt (narrow16_le i) (NameList.lt_size_of_indexOf? hi)

/-- A terminal that has been found by its name has this name. -/
theorem terminalName?_of_findTerminal? {table : SymbolTable} {name : String} {t : TokenId}
    (h : table.findTerminal? name = some t) : table.terminalName? t = some name := by
  obtain ⟨i, hi, rfl⟩ := Option.map_eq_some_iff.1 h
  have hneg : ¬ Int.ofNat i < 0 := Int.not_lt.2 (Int.natCast_nonneg i)
  rw [SymbolTable.terminalName?, if_neg hneg]
  exact NameList.indexOf?_eq_some_iff.1 hi

/-- The number of a terminal that has been found is in range and not that of the end of the input.
-/
theorem inRange_of_findTerminal? {table : SymbolTable} (htable : table.EndFirst) {name : String}
    (hname : isTokenName name = true) {t : TokenId} (h : table.findTerminal? name = some t) :
    table.InRange (.terminal t) := by
  obtain ⟨i, hi, rfl⟩ := Option.map_eq_some_iff.1 h
  have hne : name ≠ endName := by
    rintro rfl
    rw [isTokenName_endName] at hname
    cases hname
  have hzero : i ≠ 0 := NameList.ne_zero_of_indexOf? htable hne hi
  have hlt : i < table.numTerminals := NameList.lt_size_of_indexOf? hi
  show (0 : Int) < (i : Int) ∧ (i : Int) < (table.numTerminals : Int)
  omega

/-- The symbols of a right-hand side are in range. -/
theorem inRange_of_resolveNames {table : SymbolTable} (htable : table.EndFirst) {id : Nat}
    {names : List String} (hnames : ∀ n ∈ names, isTokenName n = true) {rhs : List Symbol}
    (h : resolveNames table id names = .ok rhs) : ∀ s ∈ rhs, table.InRange s := by
  induction names generalizing rhs with
  | nil =>
    obtain rfl := Except.ok.inj h
    simp
  | cons name names ih =>
    rw [List.forall_mem_cons] at hnames
    unfold resolveNames at h
    cases ht : table.findTerminal? name with
    | some t =>
      rw [ht] at h
      obtain ⟨rest, hrest, rfl⟩ := exists_of_map_eq_ok h
      exact List.forall_mem_cons.2
        ⟨inRange_of_findTerminal? htable hnames.1 ht, ih hnames.2 hrest⟩
    | none =>
      cases hv : table.findNonterminal? name with
      | some v =>
        rw [ht, hv] at h
        obtain ⟨rest, hrest, rfl⟩ := exists_of_map_eq_ok h
        exact List.forall_mem_cons.2 ⟨lt_of_findNonterminal? hv, ih hnames.2 hrest⟩
      | none =>
        rw [ht, hv] at h
        cases h

/-- The symbols of all productions are in range. -/
theorem resolveProductions_spec {table : SymbolTable} (htable : table.EndFirst) {log log' : Log}
    {id : Nat} {named : List NamedProduction} {productions : List Production}
    (hnamed : ∀ p ∈ named, ∀ n ∈ p.rhs, isTokenName n = true)
    (h : resolveProductions table log id named = .ok (productions, log')) :
    ∀ p ∈ productions, (p.lhs = 0 ∨ p.lhs < table.numNonterminals) ∧
      ∀ s ∈ p.rhs, table.InRange s := by
  induction named generalizing log id productions with
  | nil =>
    cases h
    simp
  | cons p named ih =>
    rw [List.forall_mem_cons] at hnamed
    unfold resolveProductions at h
    split at h
    · cases h
    next rhs hrhs =>
    split at h
    · cases h
    next precedence log₁ _ =>
    obtain ⟨⟨rest, log₂⟩, hrest, heq⟩ := exists_of_map_eq_ok h
    cases heq
    refine List.forall_mem_cons.2 ⟨⟨?_, inRange_of_resolveNames htable hnamed.1 hrhs⟩,
      ih hnamed.2 hrest⟩
    dsimp only
    cases hlhs : table.findNonterminal? p.lhs with
    | none => exact .inl rfl
    | some v => exact .inr (lt_of_findNonterminal? hlhs)

/-- A grammar is made of the symbols and the productions that it is given. -/
theorem Grammar.eq_of_ofProductions {symbols : SymbolTable} {productions : List Production}
    {log : Log} {g : Grammar} (h : Grammar.ofProductions symbols productions log = .ok g) :
    productions ≠ [] ∧ g.symbols = symbols ∧ g.productions = productions.toArray ∧
      g.first = firstTable symbols.numNonterminals productions := by
  unfold Grammar.ofProductions at h
  split at h
  · cases h
  next hne =>
  dsimp only at h
  split at h
  · cases h
  split at h
  · cases h
  obtain rfl := Except.ok.inj h
  exact ⟨by simpa using hne, rfl, rfl, rfl⟩

/-- **A definition resolves to a well-formed grammar only.** -/
theorem GrammarDefinition.wellFormed_of_resolve {d : GrammarDefinition} {g : Grammar}
    (hd : d.Reachable) (h : d.resolve = .ok g) : g.WellFormed := by
  -- each stage that can fail has not: the symbols of the left-hand sides, and those of the others
  unfold GrammarDefinition.resolve at h
  split at h
  · cases h
  next hne =>
  split at h
  · cases h
  next table htable =>
  split at h
  · cases h
  next productions log hproductions =>
  have hend : table.EndFirst := endFirst_addLhsSymbols (endFirst_tokenSymbols d) htable
  have hpos : 0 < table.numNonterminals :=
    numNonterminals_pos_of_addLhsSymbols (by simpa using hne) htable
  have hall := resolveProductions_spec hend hd.isTokenName hproductions
  obtain ⟨hproductions', hsymbols, harray, hfirst⟩ := Grammar.eq_of_ofProductions h
  have hcount : g.numNonterminals = table.numNonterminals := by
    rw [Grammar.numNonterminals, hsymbols]
  have hrange : g.InRange = table.InRange := by
    funext s
    cases s with
    | terminal t =>
      show (0 < t ∧ t < (g.numTerminals : Int)) = _
      rw [Grammar.numTerminals, hsymbols]
      rfl
    | nonterminal v =>
      show (v < g.numNonterminals) = _
      rw [hcount]
      rfl
  have hmem : ∀ p ∈ g.productions, p ∈ productions := by simp [harray]
  refine ⟨?_, ?_, ?_, ?_, ?_⟩
  · simpa [harray] using List.length_pos_iff.2 hproductions'
  · rw [Grammar.numTerminals, hsymbols]
    exact (Array.getElem?_eq_some_iff.1 hend).choose
  · intro p hp
    rw [hcount]
    rcases (hall p (hmem p hp)).1 with hzero | hlt
    · exact hzero ▸ hpos
    · exact hlt
  · intro p hp s hs
    rw [hrange]
    exact (hall p (hmem p hp)).2 s hs
  · rw [hcount, hfirst, harray]

end FrontEnd
