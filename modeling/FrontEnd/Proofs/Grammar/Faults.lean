import FrontEnd.Proofs.Grammar.Spelling

/-!
# Faults of a definition

A definition that has a grammar violates none of a few conditions, which are looked at in a fixed
order.  The fault is that of the first condition that does not hold, and it names the first
offender.  What is only suspicious is reported in the log of the grammar.

## Main Definitions

* `GrammarDefinition.Violates` — the conditions in their order, each with its fault
* `GrammarDefinition.FirstFault` — the fault of the first condition that does not hold
* `GrammarDefinition.warnings` — what is reported
* `resolveProduction` — one production of a definition with the numbers of a table

## Main Statements

* `translates_of_resolveProductions` — the productions of a grammar are those of the definition
* `GrammarDefinition.outcome_of_resolve` — what each stage of the resolution leaves behind
* `GrammarDefinition.resolve_exact` — a definition is refused for its first fault only

## Design Notes

The conditions are numbered in the order in which they are looked at, and the fault of a definition
is described without the stages that find it: it is the fault of the first condition that is
violated.  Each stage of the resolution has two lemmas, one for each outcome.  Without a fault its
condition holds, and with a fault the first offender is found by induction over the list that the
stage walks through.

Conditions are about names, while the last two checks are about the numbers of a grammar.
`Grammar.Spells` carries them over.
-/

namespace FrontEnd

/-! ### What is wrong with a definition

The order of the conditions is that of the checks, and `FirstWith` picks the first offender of a
condition.  Names of one production are looked at in their order, those of the right-hand side
before the one for the precedence. -/

namespace GrammarDefinition

/-- The names of a production are those of symbols, and its precedence is that of a token. -/
structure NamesDeclared (d : GrammarDefinition) (p : NamedProduction) : Prop where
  rhs : ∀ n ∈ p.rhs, d.IsSymbol n
  precedence : ∀ n ∈ p.precedence, d.IsToken n

/-- What is wrong with the names of production `id`: the first one of the right-hand side that is no
symbol, and where there is none, the one for the precedence. -/
inductive NameFault (d : GrammarDefinition) (id : Nat) (p : NamedProduction) : GrammarFault → Prop
  | undeclared {i : Nat} {name : String} :
    FirstWith (fun n => ¬ d.IsSymbol n) p.rhs i name → NameFault d id p (.undeclaredSymbol name id)
  | precedence {name : String} : (∀ n ∈ p.rhs, d.IsSymbol n) → p.precedence = some name →
    ¬ d.IsToken name → NameFault d id p (.unknownPrecToken name id)

/-- The conditions that a definition may violate, in the order in which they are looked at, with the
fault of each. -/
inductive Violates (d : GrammarDefinition) : Nat → GrammarFault → Prop
  | noProductions : d.productions = [] → Violates d 0 .noProductions
  | tokenAsLhs {i : Nat} {p : NamedProduction} :
    FirstWith (fun q => d.IsToken q.lhs) d.productions i p → Violates d 1 (.tokenAsLhs p.lhs)
  | names {i : Nat} {p : NamedProduction} {fault : GrammarFault} :
    FirstWith (fun q => ¬ d.NamesDeclared q) d.productions i p → d.NameFault i p fault →
      Violates d 2 fault
  | unreachable {v : Nat} {name : String} :
    FirstWith (fun n => ¬ d.Occurs n) d.nonterminalNames v name → Violates d 3 (.unreachable name)
  | unproductiveStart {start : String} :
    d.startName? = some start → ¬ d.IsProductive start → Violates d 4 (.unproductiveStart start)

/-- None of the first `k` conditions is violated. -/
def Passes (d : GrammarDefinition) (k : Nat) : Prop := ∀ j < k, ∀ fault, ¬ d.Violates j fault

/-- The fault of the first condition that does not hold. -/
def FirstFault (d : GrammarDefinition) (fault : GrammarFault) : Prop :=
  ∃ k, d.Violates k fault ∧ d.Passes k

/-! ### What is reported

The texts are spelled out here once more, from names instead of numbers. -/

/-- The warning about production `id`, when its precedence is that of a token without one. -/
def precedenceWarning (d : GrammarDefinition) (id : Nat) : Option String → List String
  | none => []
  | some name =>
    if d.hasPrecedence name then []
    else ["%prec " ++ name ++ " in production " ++ toString id ++ ": the token has no precedence"]

open Classical in
/-- The nonterminals that derive no string of tokens. -/
noncomputable def unproductiveNames (d : GrammarDefinition) : List String :=
  d.nonterminalNames.filter fun name => ¬ d.IsProductive name

/-- The tokens that are in no right-hand side. -/
def unusedTokens (d : GrammarDefinition) : List String :=
  d.tokens.names.toList.filter fun name => ∀ p ∈ d.productions, name ∉ p.rhs

/-- The warning about some names, where there are any. -/
def warningAbout (what : String) (names : List String) : List String :=
  if names.isEmpty then [] else [what ++ ": " ++ String.intercalate ", " names]

/-- What is reported about a definition: precedences that tokens do not have, then nonterminals that
derive no string of tokens, then tokens that are in no right-hand side. -/
noncomputable def warnings (d : GrammarDefinition) : List String :=
  d.productions.zipIdx.flatMap (fun (p, id) => d.precedenceWarning id p.precedence) ++
    warningAbout "unproductive nonterminals" d.unproductiveNames ++
    warningAbout "unused tokens" d.unusedTokens

variable {d : GrammarDefinition} {id k : Nat} {p : NamedProduction} {fault other : GrammarFault}

/-! ### One fault

A definition has at most one first fault: the offender of a condition is determined by being the
first, and the condition by having none violated in front of it. -/

/-- A production with a fault in its names does not have all names declared. -/
theorem NameFault.not_namesDeclared (h : d.NameFault id p fault) : ¬ d.NamesDeclared p := by
  intro hdeclared
  cases h with
  | undeclared hfirst => exact hfirst.2.1 (hdeclared.rhs _ hfirst.mem)
  | precedence _ hname htoken => exact htoken (hdeclared.precedence _ hname)

/-- The names of a production have one fault: the first of those on the right-hand side is reported
before the one for the precedence. -/
theorem NameFault.unique (h : d.NameFault id p fault) (h' : d.NameFault id p other) :
    fault = other := by
  cases h with
  | undeclared hfirst =>
    cases h' with
    | undeclared hfirst' => rw [(hfirst.unique hfirst').2]
    | precedence hrhs => exact absurd (hrhs _ hfirst.mem) hfirst.2.1
  | precedence hrhs hname =>
    cases h' with
    | undeclared hfirst' => exact absurd (hrhs _ hfirst'.mem) hfirst'.2.1
    | precedence _ hname' => rw [Option.some.inj (hname.symm.trans hname')]

/-- Each condition has one fault. -/
theorem Violates.unique (h : d.Violates k fault) (h' : d.Violates k other) : fault = other := by
  cases h with
  | noProductions =>
    cases h'
    rfl
  | tokenAsLhs hfirst =>
    cases h' with
    | tokenAsLhs hfirst' => rw [(hfirst.unique hfirst').2]
  | names hfirst hfault =>
    cases h' with
    | names hfirst' hfault' =>
      obtain ⟨rfl, rfl⟩ := hfirst.unique hfirst'
      exact hfault.unique hfault'
  | unreachable hfirst =>
    cases h' with
    | unreachable hfirst' => rw [(hfirst.unique hfirst').2]
  | unproductiveStart hstart =>
    cases h' with
    | unproductiveStart hstart' => rw [Option.some.inj (hstart.symm.trans hstart')]

theorem Passes.zero : d.Passes 0 := fun _ hlt => absurd hlt (Nat.not_lt_zero _)

theorem Passes.succ (h : d.Passes k) (hk : ∀ fault, ¬ d.Violates k fault) : d.Passes (k + 1) := by
  intro j hj
  rcases Nat.lt_succ_iff_lt_or_eq.1 hj with hlt | rfl
  · exact h j hlt
  · exact hk

/-- There are no other conditions. -/
theorem Passes.not_violates (h : d.Passes 5) (k : Nat) (fault : GrammarFault) :
    ¬ d.Violates k fault := by
  intro hviolates
  refine h k ?_ fault hviolates
  cases hviolates <;> decide

/-- There is one first fault. -/
theorem FirstFault.unique (h : d.FirstFault fault) (h' : d.FirstFault other) : fault = other := by
  obtain ⟨k, hk, hbefore⟩ := h
  obtain ⟨k', hk', hbefore'⟩ := h'
  rcases Nat.lt_trichotomy k k' with hlt | rfl | hlt
  · exact absurd hk (hbefore' k hlt fault)
  · exact hk.unique hk'
  · exact absurd hk' (hbefore k' hlt other)

end GrammarDefinition

/-! ### Left-hand sides

A name on the left that has been declared as a token stops the resolution. -/

section Stages

variable {d : GrammarDefinition} {table table' : SymbolTable} {log log' : Log} {id : Nat}
  {fault : GrammarFault}

/-- The table of tokens has the names of tokens. -/
theorem has_iff_isToken {name : String} : d.tokens.has name = true ↔ d.IsToken name := by
  have hnone : d.tokens.names.indexOf? name = none ↔ name ∉ d.tokens.names.toList :=
    NameList.indexOf?_eq_none_iff
  rw [GrammarDefinition.IsToken, NameTable.has, NameList.contains, Option.isSome_iff_ne_none, ne_eq,
    hnone, Classical.not_not]

/-- Without a fault no left-hand side is a token. -/
theorem not_isToken_of_addLhsSymbols {productions : List NamedProduction}
    (h : d.addLhsSymbols table productions = .ok table') :
    ∀ p ∈ productions, ¬ d.IsToken p.lhs := by
  intro p hp htoken
  have hhas := exists_addLhsSymbols_iff.1 ⟨table', h⟩ p hp
  exact Bool.false_ne_true (hhas.symm.trans (has_iff_isToken.2 htoken))

/-- The fault is that of the first left-hand side that is a token. -/
theorem fault_of_addLhsSymbols {productions : List NamedProduction}
    (h : d.addLhsSymbols table productions = .error fault) :
    ∃ i p, FirstWith (fun q => d.IsToken q.lhs) productions i p ∧ fault = .tokenAsLhs p.lhs := by
  induction productions generalizing table with
  | nil => cases h
  | cons p rest ih =>
    unfold GrammarDefinition.addLhsSymbols at h
    split at h
    · next hhas =>
      exact ⟨0, p, .head (has_iff_isToken.1 hhas), (Except.error.inj h).symm⟩
    · next hhas =>
      obtain ⟨i, q, hfirst, hfault⟩ := ih h
      exact ⟨i + 1, q, hfirst.tail fun htoken => hhas (has_iff_isToken.2 htoken), hfault⟩

/-! ### Names

The names of a right-hand side are looked up in their order, terminals before nonterminals.  The
first one that is neither is the fault. -/

/-- One name after the other is looked up, and the first that is not found ends it. -/
theorem resolveNames_cons (table : SymbolTable) (id : Nat) (name : String) (names : List String) :
    resolveNames table id (name :: names) =
      match table.symbol? name with
      | some s => (resolveNames table id names).map (s :: ·)
      | none => .error (.undeclaredSymbol name id) := by
  rw [resolveNames, SymbolTable.symbol?]
  cases table.findTerminal? name <;> cases table.findNonterminal? name <;> rfl

/-- Without a fault each name stands for a symbol. -/
theorem spec_of_resolveNames {names : List String} {rhs : List Symbol}
    (h : resolveNames table id names = .ok rhs) :
    List.Forall₂ (fun n s => table.symbol? n = some s) names rhs := by
  induction names generalizing rhs with
  | nil =>
    obtain rfl := Except.ok.inj h
    exact .nil
  | cons name names ih =>
    rw [resolveNames_cons] at h
    split at h
    · next s hs =>
      obtain ⟨rest, hrest, rfl⟩ := exists_of_map_eq_ok h
      exact .cons hs (ih hrest)
    · cases h

/-- Without a fault each name is declared. -/
theorem isSymbol_of_resolveNames (ht : table.Lists d) {names : List String} {rhs : List Symbol}
    (hnames : ∀ n ∈ names, isTokenName n = true) (h : resolveNames table id names = .ok rhs) :
    ∀ n ∈ names, d.IsSymbol n := by
  intro n hn
  obtain ⟨s, -, hs⟩ := exists_mem_of_forall₂ (spec_of_resolveNames h) hn
  exact (ht.exists_symbol?_iff (hnames n hn)).1 ⟨s, hs⟩

/-- The fault is that of the first name that stands for no symbol. -/
theorem fault_of_resolveNames (ht : table.Lists d) {names : List String}
    (hnames : ∀ n ∈ names, isTokenName n = true) (h : resolveNames table id names = .error fault) :
    ∃ i name, FirstWith (fun n => ¬ d.IsSymbol n) names i name ∧
      fault = .undeclaredSymbol name id := by
  induction names with
  | nil => cases h
  | cons name names ih =>
    obtain ⟨hname, hrest⟩ := List.forall_mem_cons.1 hnames
    rw [resolveNames_cons] at h
    cases hs : table.symbol? name with
    | some s =>
      rw [hs] at h
      obtain ⟨i, other, hfirst, hfault⟩ := ih hrest (error_of_map_eq_error h)
      have hsymbol : d.IsSymbol name := (ht.exists_symbol?_iff hname).1 ⟨s, hs⟩
      exact ⟨i + 1, other, hfirst.tail (not_not_intro hsymbol), hfault⟩
    | none =>
      rw [hs] at h
      refine ⟨0, name, .head fun hsymbol => ?_, (Except.error.inj h).symm⟩
      obtain ⟨s, hs'⟩ := (ht.exists_symbol?_iff hname).2 hsymbol
      cases hs.symm.trans hs'

/-! ### Precedences

The precedence of a production is named, or inherited from its right-hand side.  A name that is no
token is a fault, a token without a precedence a warning only. -/

/-- Without a fault the name is that of a token, and it is reported when the token has no
precedence. -/
theorem spec_of_resolvePrecedence {rhs : List Symbol} {named : Option String}
    {precedence : Option Precedence}
    (h : resolvePrecedence table log id rhs named = .ok (precedence, log')) :
    precedence = table.productionPrecedence? rhs named ∧
      (∀ name ∈ named, ∃ t, table.findTerminal? name = some t) ∧
      ∀ d, table.Lists d → (∀ name ∈ named, isTokenName name = true) → log'.messages =
        log.messages ++ (d.precedenceWarning id named).map (Log.Message.mk .warning) := by
  cases named with
  | none =>
    cases h
    exact ⟨rfl, by simp, by simp [GrammarDefinition.precedenceWarning]⟩
  | some name =>
    unfold resolvePrecedence at h
    dsimp only at h
    cases ht : table.findTerminal? name with
    | none =>
      rw [ht] at h
      cases h
    | some t =>
      have hfind : ∀ n ∈ some name, ∃ t, table.findTerminal? n = some t := by simp [ht]
      have hproduction : table.productionPrecedence? rhs (some name) = table.precedence? t := by
        rw [SymbolTable.productionPrecedence?, ht]
        rfl
      rw [ht] at h
      dsimp only at h
      cases hp : table.precedence? t with
      | some q =>
        rw [hp] at h
        cases h
        refine ⟨by rw [hproduction, hp], hfind, fun d hlists hname => ?_⟩
        have hhas := hlists.hasPrecedence_eq (hname name rfl) ht
        simp [GrammarDefinition.precedenceWarning, hhas, hp]
      | none =>
        rw [hp] at h
        cases h
        refine ⟨by rw [hproduction, hp], hfind, fun d hlists hname => ?_⟩
        have hhas := hlists.hasPrecedence_eq (hname name rfl) ht
        simp [GrammarDefinition.precedenceWarning, hhas, hp, Log.warning, Log.add]

/-- The fault is that the name is not that of a token. -/
theorem fault_of_resolvePrecedence {rhs : List Symbol} {named : Option String}
    (h : resolvePrecedence table log id rhs named = .error fault) :
    ∃ name, named = some name ∧ table.findTerminal? name = none ∧
      fault = .unknownPrecToken name id := by
  unfold resolvePrecedence at h
  split at h
  · cases h
  · next name =>
    split at h
    · next hnone => exact ⟨name, rfl, hnone, (Except.error.inj h).symm⟩
    · split at h <;> cases h

/-! ### Productions

One production at a time is resolved, and its number is the count of those in front of it.  What is
known about one production is carried over to the list by induction; the log grows by the warnings
of each production in turn. -/

/-- One production of a definition with the numbers of a table. -/
def resolveProduction (table : SymbolTable) (log : Log) (id : Nat) (p : NamedProduction) :
    Except GrammarFault (Production × Log) :=
  match resolveNames table id p.rhs with
  | .error e => .error e
  | .ok rhs =>
    (resolvePrecedence table log id rhs p.precedence).map fun (precedence, log) =>
      (⟨(table.findNonterminal? p.lhs).getD 0, rhs, precedence⟩, log)

/-- One production after the other is resolved, each with the next number. -/
theorem resolveProductions_cons (table : SymbolTable) (log : Log) (id : Nat) (p : NamedProduction)
    (rest : List NamedProduction) :
    resolveProductions table log id (p :: rest) =
      match resolveProduction table log id p with
      | .error e => .error e
      | .ok (production, log) =>
        (resolveProductions table log (id + 1) rest).map fun (productions, log) =>
          (production :: productions, log) := by
  rw [resolveProductions, resolveProduction]
  cases resolveNames table id p.rhs with
  | error e => rfl
  | ok rhs => cases h : resolvePrecedence table log id rhs p.precedence <;> simp [h, Except.map]

/-- Without a fault a production has the numbers of its symbols. -/
theorem translates_of_resolveProduction {p : NamedProduction} {q : Production}
    (h : resolveProduction table log id p = .ok (q, log')) : table.Translates p q := by
  unfold resolveProduction at h
  split at h
  · cases h
  next rhs hrhs =>
  obtain ⟨⟨precedence, log₁⟩, hprecedence, heq⟩ := exists_of_map_eq_ok h
  cases heq
  obtain ⟨hinherits, htoken, -⟩ := spec_of_resolvePrecedence hprecedence
  exact ⟨rfl, spec_of_resolveNames hrhs, hinherits, htoken⟩

/-- Without a fault the names of a production are declared, and a missing precedence is reported. -/
theorem spec_of_resolveProduction (ht : table.Lists d) {p : NamedProduction} {q : Production}
    (hnames : ∀ n ∈ p.names, isTokenName n = true)
    (h : resolveProduction table log id p = .ok (q, log')) :
    d.NamesDeclared p ∧ log'.messages =
      log.messages ++ (d.precedenceWarning id p.precedence).map (Log.Message.mk .warning) := by
  obtain ⟨hrhs, hprecedence⟩ := List.forall_mem_append.1 hnames
  unfold resolveProduction at h
  split at h
  · cases h
  next rhs hresolve =>
  obtain ⟨⟨precedence, log₁⟩, hok, heq⟩ := exists_of_map_eq_ok h
  cases heq
  obtain ⟨-, hfind, hlog⟩ := spec_of_resolvePrecedence hok
  have hname : ∀ n ∈ p.precedence, isTokenName n = true :=
    fun n hn => hprecedence n (Option.mem_toList.2 hn)
  have htoken : ∀ n ∈ p.precedence, d.IsToken n :=
    fun n hn => (ht.findTerminal?_iff (hname n hn)).1 (hfind n hn)
  exact ⟨⟨isSymbol_of_resolveNames ht hrhs hresolve, htoken⟩, hlog d ht hname⟩

/-- With a fault, it is the one of the names of the production. -/
theorem fault_of_resolveProduction (ht : table.Lists d) {p : NamedProduction}
    (hnames : ∀ n ∈ p.names, isTokenName n = true)
    (h : resolveProduction table log id p = .error fault) : d.NameFault id p fault := by
  obtain ⟨hrhs, hprecedence⟩ := List.forall_mem_append.1 hnames
  unfold resolveProduction at h
  split at h
  · next e hresolve =>
    obtain rfl := Except.error.inj h
    obtain ⟨i, name, hfirst, rfl⟩ := fault_of_resolveNames ht hrhs hresolve
    exact .undeclared hfirst
  · next rhs hresolve =>
    obtain ⟨name, hname, hnone, rfl⟩ := fault_of_resolvePrecedence (error_of_map_eq_error h)
    refine .precedence (isSymbol_of_resolveNames ht hrhs hresolve) hname fun htoken => ?_
    have htokenName := hprecedence name (Option.mem_toList.2 hname)
    obtain ⟨t, hfind⟩ := (ht.findTerminal?_iff htokenName).2 htoken
    cases hnone.symm.trans hfind

/-- Without a fault all productions have the numbers of their symbols. -/
theorem translates_of_resolveProductions {named : List NamedProduction}
    {productions : List Production}
    (h : resolveProductions table log id named = .ok (productions, log')) :
    List.Forall₂ table.Translates named productions := by
  induction named generalizing log id productions with
  | nil =>
    cases h
    exact .nil
  | cons p named ih =>
    rw [resolveProductions_cons] at h
    split at h
    · cases h
    next q log₁ hq =>
    obtain ⟨⟨rest, log₂⟩, hrest, heq⟩ := exists_of_map_eq_ok h
    cases heq
    exact .cons (translates_of_resolveProduction hq) (ih hrest)

/-- The productions of a grammar have the numbers of their symbols. -/
theorem translates_of_resolve {g : Grammar} (h : d.resolve = .ok g) :
    List.Forall₂ g.symbols.Translates d.productions g.productions.toList := by
  unfold GrammarDefinition.resolve at h
  split at h
  · cases h
  split at h
  · cases h
  next table htable =>
  split at h
  · cases h
  next productions log hproductions =>
  obtain ⟨-, hsymbols, harray, -⟩ := Grammar.eq_of_ofProductions h
  rw [hsymbols, harray]
  exact translates_of_resolveProductions hproductions

/-- Without a fault the names of all productions are declared, and missing precedences are
reported. -/
theorem spec_of_resolveProductions (ht : table.Lists d) {named : List NamedProduction}
    {productions : List Production} (hnames : ∀ p ∈ named, ∀ n ∈ p.names, isTokenName n = true)
    (h : resolveProductions table log id named = .ok (productions, log')) :
    (∀ p ∈ named, d.NamesDeclared p) ∧ log'.messages = log.messages ++
      ((named.zipIdx id).flatMap fun (p, i) => d.precedenceWarning i p.precedence).map
        (Log.Message.mk .warning) := by
  induction named generalizing log id productions with
  | nil =>
    cases h
    simp
  | cons p named ih =>
    obtain ⟨hp, hrest⟩ := List.forall_mem_cons.1 hnames
    rw [resolveProductions_cons] at h
    split at h
    · cases h
    next q log₁ hq =>
    obtain ⟨⟨rest, log₂⟩, hok, heq⟩ := exists_of_map_eq_ok h
    cases heq
    obtain ⟨hdeclared, hlog⟩ := spec_of_resolveProduction ht hp hq
    obtain ⟨hall, hlog'⟩ := ih hrest hok
    refine ⟨List.forall_mem_cons.2 ⟨hdeclared, hall⟩, ?_⟩
    rw [hlog', hlog, List.zipIdx_cons, List.flatMap_cons, List.map_append, List.append_assoc]

/-- The fault is that of the first production with a name that has not been declared. -/
theorem fault_of_resolveProductions (ht : table.Lists d) {named : List NamedProduction}
    (hnames : ∀ p ∈ named, ∀ n ∈ p.names, isTokenName n = true)
    (h : resolveProductions table log id named = .error fault) :
    ∃ i p, FirstWith (fun q => ¬ d.NamesDeclared q) named i p ∧ d.NameFault (id + i) p fault := by
  induction named generalizing log id with
  | nil => cases h
  | cons p named ih =>
    obtain ⟨hp, hrest⟩ := List.forall_mem_cons.1 hnames
    rw [resolveProductions_cons] at h
    split at h
    · next e hq =>
      obtain rfl := Except.error.inj h
      have hfault := fault_of_resolveProduction ht hp hq
      exact ⟨0, p, .head hfault.not_namesDeclared, hfault⟩
    · next q log₁ hq =>
      obtain ⟨i, p', hfirst, hfault⟩ := ih hrest (error_of_map_eq_error h)
      have hdeclared := (spec_of_resolveProduction ht hp hq).1
      refine ⟨i + 1, p', hfirst.tail (not_not_intro hdeclared), ?_⟩
      rwa [Nat.add_comm i 1, ← Nat.add_assoc]

end Stages

/-! ### Symbols that are not used

The lists of the log are computed with numbers.  Their names are those of the definition, in the
same order, since a table lists its symbols in the order of their numbers. -/

namespace Grammar.Spells

variable {g : Grammar} {d : GrammarDefinition}

/-- The names of the nonterminals in the order of their numbers are those of the definition in the
order in which they occur on the left. -/
theorem map_range_numNonterminals (h : g.Spells d) :
    ((List.range g.numNonterminals).map fun v => g.symbols.symbolName (.nonterminal v)) =
      d.nonterminalNames := by
  have hcount : g.numNonterminals = d.nonterminalNames.length := h.lists.numNonterminals_eq
  refine List.ext_getElem (by simp [hcount]) fun v _ hv => ?_
  rw [List.getElem_map, List.getElem_range]
  exact h.lists.symbolName_nonterminal (List.getElem?_eq_getElem hv)

open Classical in
/-- The nonterminals that are not productive have the names that derive no string of tokens. -/
theorem unproductiveNames_eq (h : g.Spells d) :
    (((List.range g.numNonterminals).filter fun v => ¬ g.Productive v).map fun v =>
      g.symbols.symbolName (.nonterminal v)) = d.unproductiveNames := by
  rw [GrammarDefinition.unproductiveNames, ← h.map_range_numNonterminals, List.filter_map]
  refine congrArg _ (List.filter_congr fun v hv => ?_)
  simp [h.productive_iff (List.mem_range.1 hv)]

/-- A terminal is used when its name is in a right-hand side. -/
theorem mem_usedTerminals_iff (h : g.Spells d) {t : TokenId}
    (ht : g.symbols.InRange (.terminal t)) :
    t ∈ usedTerminals g.productions.toList ↔
      ∃ p ∈ d.productions, g.symbols.symbolName (.terminal t) ∈ p.rhs := by
  have hmem : t ∈ usedTerminals g.productions.toList ↔
      ∃ p ∈ g.productions, .terminal t ∈ p.rhs := by
    have hterminal : ∀ s : Symbol, s.terminal? = some t ↔ s = .terminal t := by
      intro s
      cases s <;> simp [Symbol.terminal?]
    simp [usedTerminals, List.mem_filterMap, hterminal]
  rw [hmem]
  constructor
  · rintro ⟨p, hp, hrhs⟩
    obtain ⟨named, hnamed, hwrites⟩ := h.exists_named hp
    exact ⟨named, hnamed, hwrites.rhs ▸ List.mem_map_of_mem hrhs⟩
  · rintro ⟨named, hnamed, hname⟩
    obtain ⟨p, hp, hwrites⟩ := h.exists_production hnamed
    rw [← hwrites.rhs] at hname
    obtain ⟨s, hs, heq⟩ := List.mem_map.1 hname
    exact ⟨p, hp, h.lists.symbolName_inj (hwrites.inRange s hs) ht heq ▸ hs⟩

/-- The terminals that are not used have the names that are in no right-hand side. -/
theorem unusedTokens_eq (h : g.Spells d) :
    ((g.symbols.properTerminals.filter fun (t, _) =>
      t ∉ usedTerminals g.productions.toList).map Prod.snd) = d.unusedTokens := by
  obtain ⟨hnames, hentries⟩ := h.lists.properTerminals_spec
  rw [GrammarDefinition.unusedTokens, ← hnames, List.filter_map]
  refine congrArg _ (List.filter_congr fun e he => ?_)
  obtain ⟨hrange, hname⟩ := hentries e he
  have hused := h.mem_usedTerminals_iff hrange
  rw [hname] at hused
  simp [hused]

/-- The first nonterminal that does not occur has the first name that does not. -/
theorem firstWith_nonterminalNames (h : g.Spells d) {v : Nat} (hv : v < g.numNonterminals)
    (hnot : ¬ g.Occurs v) (hbefore : ∀ w < v, g.Occurs w) :
    FirstWith (fun n => ¬ d.Occurs n) d.nonterminalNames v
      (g.symbols.symbolName (.nonterminal v)) := by
  rw [← h.map_range_numNonterminals]
  refine ⟨by simp [hv], fun hoccurs => hnot ((h.occurs_iff hv).1 hoccurs), ?_⟩
  rw [← List.map_take, List.take_range, Nat.min_eq_left (Nat.le_of_lt hv)]
  intro name hname
  obtain ⟨w, hw, rfl⟩ := List.mem_map.1 hname
  have hlt := List.mem_range.1 hw
  exact not_not_intro ((h.occurs_iff (Nat.lt_trans hlt hv)).2 (hbefore w hlt))

/-- Where all nonterminals occur, so do their names. -/
theorem forall_nonterminalNames (h : g.Spells d) (hall : ∀ v < g.numNonterminals, g.Occurs v) :
    ∀ name ∈ d.nonterminalNames, d.Occurs name := by
  rw [← h.map_range_numNonterminals]
  intro name hname
  obtain ⟨v, hv, rfl⟩ := List.mem_map.1 hname
  have hlt := List.mem_range.1 hv
  exact (h.occurs_iff hlt).2 (hall v hlt)

end Grammar.Spells

/-! ### The resolution

The stages one after another.  Each either finds a fault, which is that of its own condition, or
shows that the condition holds and adds to what is known for the next stage. -/

/-- A warning about names is added to the log where there are any names. -/
theorem messages_warnAbout (log : Log) (what : String) (names : List String) :
    (Grammar.warnAbout log what names).messages = log.messages ++
      (GrammarDefinition.warningAbout what names).map (Log.Message.mk .warning) := by
  unfold Grammar.warnAbout GrammarDefinition.warningAbout
  cases names <;> simp [Log.warning, Log.add]

namespace GrammarDefinition

variable {d : GrammarDefinition} {table : SymbolTable}

/-- The table lists the tokens and the nonterminals of the definition, once the left-hand sides have
been entered. -/
theorem lists_of_addLhsSymbols (hd : d.Reachable) (hlength : d.nonterminalNames.length < 65536)
    (h : d.addLhsSymbols d.tokenSymbols d.productions = .ok table) : table.Lists d := by
  have hlist := nonterminals_addLhsSymbols h
  rw [(holds_tokenSymbols hd).nonterminals, List.nil_append] at hlist
  refine ⟨hd, terminals_addLhsSymbols h, hlist, fun name hname => ?_, hlength⟩
  obtain ⟨p, hp, rfl⟩ := mem_nonterminalNames.1 hname
  exact not_isToken_of_addLhsSymbols h p hp

/-- What the checks leave behind, when the conditions in front of them hold. -/
theorem outcome_of_ofProductions {g : Grammar} (h : g.Spells d) (hpasses : d.Passes 3)
    (hlog : g.log.messages = (d.productions.zipIdx.flatMap fun (p, id) =>
      d.precedenceWarning id p.precedence).map (Log.Message.mk .warning)) :
    match Grammar.ofProductions g.symbols g.productions.toList g.log with
    | .error fault => d.FirstFault fault
    | .ok g' => d.Passes 5 ∧ g'.log.messages = d.warnings.map (Log.Message.mk .warning) := by
  have hg := h.wellFormed
  -- where all nonterminals occur, so do their names
  have hnext : (∀ v < g.numNonterminals, g.Occurs v) → d.Passes 4 := fun hoccurs =>
    hpasses.succ fun fault hfault => by
      cases hfault with
      | unreachable hfirst => exact hfirst.2.1 (h.forall_nonterminalNames hoccurs _ hfirst.mem)
  have hstart := h.productive_iff hg.start_lt
  cases hchecks : Grammar.ofProductions g.symbols g.productions.toList g.log with
  | error fault =>
    rcases Grammar.fault_of_ofProductions hg hchecks with
      ⟨v, hv, hnot, hbefore, rfl⟩ | ⟨hoccurs, hunproductive, rfl⟩
    · exact ⟨3, .unreachable (h.firstWith_nonterminalNames hv hnot hbefore), hpasses⟩
    · refine ⟨4, .unproductiveStart h.startName?_eq ?_, hnext hoccurs⟩
      rwa [hstart]
  | ok g' =>
    obtain ⟨hoccurs, hproductive, hmessages⟩ := Grammar.spec_of_ofProductions hg hchecks
    refine ⟨(hnext hoccurs).succ fun fault hfault => ?_, ?_⟩
    · cases hfault with
      | unproductiveStart hname hnot =>
        obtain rfl := Option.some.inj (h.startName?_eq.symm.trans hname)
        exact hnot (hstart.2 hproductive)
    · rw [hmessages, messages_warnAbout, messages_warnAbout, hlog, h.unproductiveNames_eq,
        h.unusedTokens_eq, warnings, List.map_append, List.map_append]

/-- **What each stage leaves behind**: the fault of the first condition that does not hold, or a
grammar with a log, when all conditions hold. -/
theorem outcome_of_resolve (hd : d.Reachable) (hlength : d.nonterminalNames.length < 65536) :
    match d.resolve with
    | .error fault => d.FirstFault fault
    | .ok g => d.Passes 5 ∧ g.log.messages = d.warnings.map (Log.Message.mk .warning) := by
  unfold resolve
  by_cases hempty : d.productions = []
  · rw [if_pos (List.isEmpty_iff.2 hempty)]
    exact ⟨0, .noProductions hempty, .zero⟩
  rw [if_neg fun h => hempty (List.isEmpty_iff.1 h)]
  have hpasses : d.Passes 1 := Passes.zero.succ fun fault hfault => by
    cases hfault
    exact hempty ‹_›
  cases htable : d.addLhsSymbols d.tokenSymbols d.productions with
  | error fault =>
    obtain ⟨i, p, hfirst, rfl⟩ := fault_of_addLhsSymbols htable
    exact ⟨1, .tokenAsLhs hfirst, hpasses⟩
  | ok table =>
  have hlists := lists_of_addLhsSymbols hd hlength htable
  have hpasses : d.Passes 2 := hpasses.succ fun fault hfault => by
    cases hfault with
    | tokenAsLhs hfirst => exact not_isToken_of_addLhsSymbols htable _ hfirst.mem hfirst.2.1
  dsimp only
  cases hproductions : resolveProductions table Log.empty 0 d.productions with
  | error fault =>
    obtain ⟨i, p, hfirst, hfault⟩ :=
      fault_of_resolveProductions hlists hd.isTokenName_names hproductions
    rw [Nat.zero_add] at hfault
    exact ⟨2, .names hfirst hfault, hpasses⟩
  | ok result =>
  obtain ⟨productions, log⟩ := result
  obtain ⟨hdeclared, hlog⟩ := spec_of_resolveProductions hlists hd.isTokenName_names hproductions
  have hpasses : d.Passes 3 := hpasses.succ fun fault hfault => by
    cases hfault with
    | names hfirst => exact hfirst.2.1 (hdeclared _ hfirst.mem)
  -- the grammar behind these stages spells the definition, whether it passes the checks or not
  let g : Grammar :=
    ⟨table, productions.toArray, firstTable table.numNonterminals productions, log⟩
  have hspells : g.Spells d :=
    ⟨hlists, translates_of_resolveProductions hproductions, hempty, rfl⟩
  exact outcome_of_ofProductions hspells hpasses hlog

/-- **A definition is refused for its first fault only.**  It has a grammar when no condition is
violated; otherwise the fault is that of the first one, with its first offender.  In a grammar the
log lists the nonterminals that derive no string of tokens and the tokens that are in no right-hand
side, in the order of their numbers and only where there are any. -/
theorem resolve_exact (hd : d.Reachable) (hlength : d.nonterminalNames.length < 65536) :
    (∀ fault, d.resolve = .error fault ↔ d.FirstFault fault) ∧
      ((∃ g, d.resolve = .ok g) ↔ ∀ k fault, ¬ d.Violates k fault) ∧
      ∀ g, d.resolve = .ok g → g.log.messages = d.warnings.map (Log.Message.mk .warning) := by
  have houtcome := outcome_of_resolve hd hlength
  cases h : d.resolve with
  | error fault =>
    rw [h] at houtcome
    obtain ⟨k, hk, hpasses⟩ := houtcome
    refine ⟨fun other => ⟨?_, fun hother => ?_⟩, ⟨?_, fun hnone => absurd hk (hnone k fault)⟩, ?_⟩
    · rintro heq
      exact Except.error.inj heq ▸ ⟨k, hk, hpasses⟩
    · rw [hother.unique ⟨k, hk, hpasses⟩]
    · rintro ⟨g, hg⟩
      cases hg
    · intro g hg
      cases hg
  | ok g =>
    rw [h] at houtcome
    obtain ⟨hpasses, hlog⟩ := houtcome
    refine ⟨fun fault => ⟨?_, ?_⟩, ⟨fun _ => hpasses.not_violates, fun _ => ⟨g, rfl⟩⟩, ?_⟩
    · intro hg
      cases hg
    · rintro ⟨k, hk, -⟩
      exact absurd hk (hpasses.not_violates k fault)
    · rintro g' heq
      rw [← Except.ok.inj heq, hlog]

end GrammarDefinition

/-- Calls, whose arguments do not end, with an operator that is there for its precedence only, and
has none. -/
def endlessCalls : GrammarDefinition :=
  (((GrammarDefinition.empty.declareTokens "id num op").2.addProductions "call"
    "id args %prec op | num").2.addProductions "args" "call args").2

/-- Nothing is wrong with such calls, but all that can be reported is. -/
theorem GrammarDefinition.resolve_exact_endlessCalls :
    (∀ k fault, ¬ endlessCalls.Violates k fault) ∧
      endlessCalls.warnings = ["%prec op in production 0: the token has no precedence",
        "unproductive nonterminals: args", "unused tokens: op"] := by
  have hlog : endlessCalls.resolve.map (fun g => g.log.messages) =
      .ok (["%prec op in production 0: the token has no precedence",
        "unproductive nonterminals: args", "unused tokens: op"].map
          (Log.Message.mk .warning)) := by decide +kernel
  have hd : endlessCalls.Reachable := .productions _ _ (.productions _ _ (.tokens _ .empty))
  obtain ⟨g, hg, hmessages⟩ := exists_of_map_eq_ok hlog
  obtain ⟨-, hok, hwarnings⟩ := resolve_exact hd (by decide +kernel)
  refine ⟨hok.1 ⟨g, hg⟩, ?_⟩
  have hinjective : Function.Injective (Log.Message.mk .warning) :=
    fun _ _ h => (Log.Message.mk.inj h).2
  exact List.map_injective_iff.2 hinjective ((hwarnings g hg).symm.trans hmessages)

/-- A left-hand side that is a token comes before a name that has not been declared, wherever they
are. -/
example :
    ((GrammarDefinition.empty.addProductions "start" "start other").2.addProductions "id"
      "'x'").2.resolve.map (fun g => g.numNonterminals) =
      .error (.undeclaredSymbol "other" 0) ∧
    (((GrammarDefinition.empty.declareTokens "id").2.addProductions "start"
      "start other").2.addProductions "id" "'x'").2.resolve.map (fun g => g.numNonterminals) =
      .error (.tokenAsLhs "id") := by decide +kernel

end FrontEnd
