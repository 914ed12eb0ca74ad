import FrontEnd.Proofs.Grammar.Operators
import FrontEnd.Proofs.Grammar.Useful
import FrontEnd.Proofs.Lists

/-!
# Derivations by names

What a grammar definition derives can be said without numbers: a step replaces a left-hand side by
the right-hand side of one of its productions.  The grammar that the definition resolves to derives
the same, with the numbers that the table of symbols gives to the names.

## Main Definitions

* `GrammarDefinition.IsToken`, `GrammarDefinition.nonterminalNames` — the names of the symbols
* `GrammarDefinition.Produces`, `GrammarDefinition.Derives` — one step, and any number of steps
* `GrammarDefinition.Occurs`, `GrammarDefinition.IsProductive` — names that the start symbol leads
  to, and names that derive a string of tokens
* `SymbolTable.Lists` — a table of the symbols of a definition
* `SymbolTable.Translates`, `Grammar.Spells` — a production, and a grammar, with the numbers of a
  table

## Main Statements

* `SymbolTable.Lists.symbol?_symbolName`, `SymbolTable.Lists.spec_of_symbol?` — names and numbers
  stand for each other
* `Grammar.Spells.derives`, `Grammar.Spells.exists_derives` — both derive the same
* `Grammar.Spells.occurs_iff`, `Grammar.Spells.productive_iff` — the same nonterminals are useful

## Design Notes

Names and numbers stand for each other by `SymbolTable.Lists`, which is all that is needed of a
table.  A derivation is carried over in both directions step by step: a production that is used on
one side has its counterpart on the other, and the symbols around it are spelled one by one.  From
derivations everything else that is said by names follows, occurrence and productivity among it.
-/

namespace FrontEnd

/-! ### Names

Symbols of a definition are known by their names: tokens are those that have been declared, and
nonterminals are left-hand sides, in the order in which they occur first. -/

namespace GrammarDefinition

/-- A name has been declared for a token. -/
def IsToken (d : GrammarDefinition) (name : String) : Prop := name ∈ d.tokens.names.toList

/-- The names of the nonterminals: the left-hand sides in the order of their first productions. -/
def nonterminalNames (d : GrammarDefinition) : List String :=
  (d.productions.map NamedProduction.lhs).eraseDups

/-- A name is that of a token or of a nonterminal. -/
def IsSymbol (d : GrammarDefinition) (name : String) : Prop :=
  d.IsToken name ∨ name ∈ d.nonterminalNames

/-- The name of the start symbol: the first left-hand side. -/
def startName? (d : GrammarDefinition) : Option String :=
  d.productions.head?.map NamedProduction.lhs

/-- A left-hand side is replaced by the right-hand side of a production. -/
inductive Produces (d : GrammarDefinition) : List String → List String → Prop
  | replace {p : NamedProduction} (u v : List String) :
    p ∈ d.productions → Produces d (u ++ p.lhs :: v) (u ++ (p.rhs ++ v))

/-- A sequence of names is derived in any number of steps. -/
def Derives (d : GrammarDefinition) : List String → List String → Prop :=
  Relation.ReflTransGen d.Produces

/-- A name occurs in what the start symbol derives. -/
def Occurs (d : GrammarDefinition) (name : String) : Prop :=
  ∃ start ∈ d.startName?, ∃ before behind, d.Derives [start] (before ++ name :: behind)

/-- A name derives a string of tokens. -/
def IsProductive (d : GrammarDefinition) (name : String) : Prop :=
  ∃ names, d.Derives [name] names ∧ ∀ n ∈ names, d.IsToken n

/-- The nonterminals are the left-hand sides. -/
theorem mem_nonterminalNames {d : GrammarDefinition} {name : String} :
    name ∈ d.nonterminalNames ↔ ∃ p ∈ d.productions, p.lhs = name := by
  rw [nonterminalNames, List.mem_eraseDups, List.mem_map]

/-- A name is a token exactly when it has an identification. -/
theorem isToken_iff {d : GrammarDefinition} {name : String} :
    d.IsToken name ↔ ∃ t, d.tokenId? name = some t := by
  have hindex : d.IsToken name ↔ d.tokens.indexOf? name ≠ none :=
    ⟨fun h hnone => NameList.indexOf?_eq_none_iff.1 hnone h,
      fun h => Classical.byContradiction fun hn => h (NameList.indexOf?_eq_none_iff.2 hn)⟩
  rw [hindex, Option.ne_none_iff_exists', tokenId?]
  simp [Option.map_eq_some_iff]

end GrammarDefinition

/-! ### Names and numbers

A table that lists the symbols of a definition gives each name one number and each number in range
one name. -/

/-- The symbol with a name; terminals come before nonterminals. -/
def SymbolTable.symbol? (table : SymbolTable) (name : String) : Option Symbol :=
  match table.findTerminal? name, table.findNonterminal? name with
  | some t, _ => some (.terminal t)
  | none, some v => some (.nonterminal v)
  | none, none => none

/-- A terminal has the name by which it is found. -/
theorem SymbolTable.symbolName_of_findTerminal? {table : SymbolTable} {name : String} {t : TokenId}
    (hrange : table.InRange (.terminal t)) (h : table.findTerminal? name = some t) :
    table.symbolName (.terminal t) = name := by
  have hne : t ≠ TokenId.endOfInput := Int.ne_of_gt hrange.1
  rw [symbolName, if_neg hne, terminalName?_of_findTerminal? h]
  rfl

/-- A table of the symbols of a definition that the operations have built, in which no nonterminal
is a token and all nonterminals have numbers of 16 bits. -/
structure SymbolTable.Lists (table : SymbolTable) (d : GrammarDefinition) : Prop where
  reachable : d.Reachable
  terminals : table.terminals = d.tokenSymbols.terminals
  nonterminals : table.nonterminals.toList = d.nonterminalNames
  disjoint : ∀ name ∈ d.nonterminalNames, ¬ d.IsToken name
  length_lt : d.nonterminalNames.length < 65536

namespace SymbolTable.Lists

variable {table : SymbolTable} {d : GrammarDefinition} {name : String} {s s' : Symbol}

theorem endFirst (h : table.Lists d) : table.EndFirst := by
  rw [EndFirst, h.terminals]
  exact endFirst_tokenSymbols d

/-- There are as many nonterminals as names. -/
theorem numNonterminals_eq (h : table.Lists d) :
    table.numNonterminals = d.nonterminalNames.length := by
  rw [← h.nonterminals]
  exact Array.length_toList.symm

/-- A name is found among the terminals exactly when it is a token. -/
theorem findTerminal?_iff (h : table.Lists d) (hname : isTokenName name = true) :
    (∃ t, table.findTerminal? name = some t) ↔ d.IsToken name := by
  rw [findTerminal?_eq_tokenId? h.reachable h.terminals hname, GrammarDefinition.isToken_iff]

/-- A nonterminal has the number of its place. -/
theorem findNonterminal?_iff (h : table.Lists d) {v : Nat} :
    table.findNonterminal? name = some v ↔ d.nonterminalNames[v]? = some name := by
  have hplace : ∀ i, table.nonterminals.indexOf? name = some i ↔
      d.nonterminalNames[i]? = some name := by
    intro i
    rw [NameList.indexOf?_eq_some_iff, NameList.get?_eq, h.nonterminals]
  rw [findNonterminal?, Option.map_eq_some_iff]
  constructor
  · rintro ⟨i, hi, rfl⟩
    have hlt := (List.getElem?_eq_some_iff.1 ((hplace i).1 hi)).choose
    rw [narrow16_of_lt (Nat.lt_trans hlt h.length_lt)]
    exact (hplace i).1 hi
  · intro hv
    have hlt := (List.getElem?_eq_some_iff.1 hv).choose
    exact ⟨v, (hplace v).2 hv, narrow16_of_lt (Nat.lt_trans hlt h.length_lt)⟩

/-- The nonterminals have the names of the left-hand sides, in their order. -/
theorem symbolName_nonterminal (h : table.Lists d) {v : Nat} :
    d.nonterminalNames[v]? = some name → table.symbolName (.nonterminal v) = name := by
  intro hv
  rw [symbolName, nonterminalName?, NameList.get?_eq, h.nonterminals, hv]
  rfl

theorem isTokenName_of_mem (h : table.Lists d) (hname : name ∈ d.nonterminalNames) :
    isTokenName name = true := by
  obtain ⟨p, hp, rfl⟩ := GrammarDefinition.mem_nonterminalNames.1 hname
  rw [isTokenName, h.reachable.isIdentifier_lhs p hp, Bool.true_or]

/-- **The symbol that a name stands for has this name**, and its number is in the range. -/
theorem spec_of_symbol? (h : table.Lists d) (hname : isTokenName name = true)
    (hs : table.symbol? name = some s) : table.symbolName s = name ∧ table.InRange s := by
  unfold symbol? at hs
  split at hs
  · next t ht =>
    obtain rfl := Option.some.inj hs
    have hrange := inRange_of_findTerminal? h.endFirst hname ht
    exact ⟨symbolName_of_findTerminal? hrange ht, hrange⟩
  · next v _ hv =>
    obtain rfl := Option.some.inj hs
    exact ⟨h.symbolName_nonterminal (h.findNonterminal?_iff.1 hv), lt_of_findNonterminal? hv⟩
  · cases hs

/-- The names of the terminals are those of the tokens, behind the end of the input. -/
theorem names_eq (h : table.Lists d) :
    table.terminals.names.toList = endName :: d.tokens.names.toList := by
  rw [h.terminals, (holds_tokenSymbols h.reachable).names]

/-- The tokens have the numbers of their places, from one on. -/
theorem findTerminal?_of_getElem? (h : table.Lists d) {i : Nat}
    (hi : d.tokens.names.toList[i]? = some name) :
    table.findTerminal? name = some ((i + 1 : Nat) : Int) := by
  refine Option.map_eq_some_iff.2 ⟨i + 1, NameList.indexOf?_eq_some_iff.2 ?_, rfl⟩
  rw [NameList.get?_eq, h.names_eq, List.getElem?_cons_succ, hi]

/-- Each terminal behind the end of the input is that of a token. -/
theorem exists_token (h : table.Lists d) {t : TokenId} (ht : table.InRange (.terminal t)) :
    d.IsToken (table.symbolName (.terminal t)) ∧
      table.findTerminal? (table.symbolName (.terminal t)) = some t := by
  have hlength : table.terminals.names.toList.length = table.numTerminals := Array.length_toList
  obtain ⟨i, rfl⟩ := Int.eq_succ_of_zero_lt ht.1
  have hi : i < d.tokens.names.toList.length := by
    rw [h.names_eq, List.length_cons] at hlength
    have hlt : i + 1 < table.numTerminals := Int.ofNat_lt.1 ht.2
    omega
  have hfind := h.findTerminal?_of_getElem? (List.getElem?_eq_getElem hi)
  rw [symbolName_of_findTerminal? ht hfind]
  exact ⟨List.getElem_mem hi, hfind⟩

/-- The terminals behind the end of the input are listed with their names, in the order of the
tokens. -/
theorem properTerminals_spec (h : table.Lists d) :
    table.properTerminals.map Prod.snd = d.tokens.names.toList ∧
      ∀ e ∈ table.properTerminals, table.InRange (.terminal e.1) ∧
        table.symbolName (.terminal e.1) = e.2 := by
  have heq : table.properTerminals =
      (d.tokens.names.toList.zipIdx 1).map fun e => (Int.ofNat e.2, e.1) := by
    rw [properTerminals, h.names_eq, List.zipIdx_cons, List.map_cons, List.drop_one, List.tail_cons]
  rw [heq]
  constructor
  · rw [List.map_map]
    exact List.zipIdx_map_fst 1 _
  · intro e he
    obtain ⟨⟨name, i⟩, hmem, rfl⟩ := List.mem_map.1 he
    obtain ⟨hpos, hi⟩ := List.mem_zipIdx_iff_le_and_getElem?_sub.1 hmem
    have hname := h.reachable.isTokenName_tokens name (List.mem_of_getElem? hi)
    have hfind := h.findTerminal?_of_getElem? hi
    rw [Nat.sub_add_cancel hpos] at hfind
    have hrange := inRange_of_findTerminal? h.endFirst hname hfind
    exact ⟨hrange, symbolName_of_findTerminal? hrange hfind⟩

/-- **The name of a symbol stands for it.** -/
theorem symbol?_symbolName (h : table.Lists d) (hs : table.InRange s) :
    table.symbol? (table.symbolName s) = some s := by
  cases s with
  | terminal t => rw [symbol?, (h.exists_token hs).2]
  | nonterminal v =>
    have hlt : v < d.nonterminalNames.length := h.numNonterminals_eq ▸ hs
    have hget : d.nonterminalNames[v]? = some d.nonterminalNames[v] := List.getElem?_eq_getElem hlt
    have hmem := List.mem_of_getElem? hget
    have hnone : table.findTerminal? d.nonterminalNames[v] = none := by
      refine Option.eq_none_iff_forall_ne_some.2 fun t ht => h.disjoint _ hmem ?_
      exact (h.findTerminal?_iff (h.isTokenName_of_mem hmem)).1 ⟨t, ht⟩
    rw [h.symbolName_nonterminal hget, symbol?, hnone, h.findNonterminal?_iff.2 hget]

theorem symbolName_inj (h : table.Lists d) (hs : table.InRange s) (hs' : table.InRange s')
    (heq : table.symbolName s = table.symbolName s') : s = s' := by
  have hsymbol := h.symbol?_symbolName hs
  rw [heq, h.symbol?_symbolName hs'] at hsymbol
  exact (Option.some.inj hsymbol).symm

/-- The names that stand for symbols are those of the definition. -/
theorem exists_symbol?_iff (h : table.Lists d) (hname : isTokenName name = true) :
    (∃ s, table.symbol? name = some s) ↔ d.IsSymbol name := by
  have hnonterminal : (∃ v, table.findNonterminal? name = some v) ↔
      name ∈ d.nonterminalNames := by
    simp only [h.findNonterminal?_iff, List.mem_iff_getElem?]
  rw [GrammarDefinition.IsSymbol, ← h.findTerminal?_iff hname, ← hnonterminal, symbol?]
  cases table.findTerminal? name <;> cases table.findNonterminal? name <;> simp

/-- The tokens are the names of the terminals. -/
theorem isToken_symbolName_iff (h : table.Lists d) (hs : table.InRange s) :
    d.IsToken (table.symbolName s) ↔ ∃ t, s = .terminal t := by
  constructor
  · intro htoken
    obtain ⟨t, ht⟩ := (h.findTerminal?_iff (h.reachable.isTokenName_tokens _ htoken)).2 htoken
    have hsymbol := h.symbol?_symbolName hs
    rw [symbol?, ht] at hsymbol
    exact ⟨t, (Option.some.inj hsymbol).symm⟩
  · rintro ⟨t, rfl⟩
    exact (h.exists_token hs).1

/-- A token has a precedence when one has been declared for it. -/
theorem hasPrecedence_eq (h : table.Lists d) (hname : isTokenName name = true) {t : TokenId}
    (ht : table.findTerminal? name = some t) :
    d.hasPrecedence name = (table.precedence? t).isSome := by
  rw [findTerminal?_eq_tokenId? h.reachable h.terminals hname] at ht
  rw [GrammarDefinition.hasPrecedence, precedence?_eq_get? h.reachable h.terminals ht]

/-- Symbols that stand for names have these names, and their numbers are in the range. -/
theorem spelled (h : table.Lists d) {names : List String} {rhs : List Symbol}
    (hnames : ∀ n ∈ names, isTokenName n = true)
    (hrhs : List.Forall₂ (fun n s => table.symbol? n = some s) names rhs) :
    rhs.map table.symbolName = names ∧ ∀ s ∈ rhs, table.InRange s := by
  induction hrhs with
  | nil => simp
  | cons hs _ ih =>
    obtain ⟨hname, hrest⟩ := List.forall_mem_cons.1 hnames
    obtain ⟨hspell, hrange⟩ := h.spec_of_symbol? hname hs
    obtain ⟨hspells, hranges⟩ := ih hrest
    rw [List.map_cons, hspell, hspells]
    exact ⟨rfl, List.forall_mem_cons.2 ⟨hrange, hranges⟩⟩

end SymbolTable.Lists

/-! ### Productions

A production and its names, one for one: where the names are declared, the numbers spell them. -/

/-- The precedence of a production: that of the token it names, otherwise that of the last terminal
that has one. -/
def SymbolTable.productionPrecedence? (table : SymbolTable) (rhs : List Symbol) :
    Option String → Option Precedence
  | none => lastPrecedence? table rhs
  | some name => (table.findTerminal? name).bind table.precedence?

/-- A production by names with the numbers of a table. -/
structure SymbolTable.Translates (table : SymbolTable) (named : NamedProduction)
    (p : Production) : Prop where
  lhs : p.lhs = (table.findNonterminal? named.lhs).getD 0
  rhs : List.Forall₂ (fun n s => table.symbol? n = some s) named.rhs p.rhs
  precedence : p.precedence = table.productionPrecedence? p.rhs named.precedence
  token : ∀ name ∈ named.precedence, ∃ t, table.findTerminal? name = some t

/-- A production whose symbols have the names of another one, and numbers in the range. -/
structure SymbolTable.Writes (table : SymbolTable) (named : NamedProduction) (p : Production) :
    Prop where
  lhs : table.symbolName (.nonterminal p.lhs) = named.lhs
  rhs : p.rhs.map table.symbolName = named.rhs
  lhs_lt : p.lhs < table.numNonterminals
  inRange : ∀ s ∈ p.rhs, table.InRange s

/-- A production that has been translated is spelled by its names. -/
theorem SymbolTable.Translates.writes {table : SymbolTable} {d : GrammarDefinition}
    {named : NamedProduction} {p : Production} (ht : table.Translates named p)
    (h : table.Lists d) (hmem : named ∈ d.productions) : table.Writes named p := by
  obtain ⟨v, hv⟩ := List.mem_iff_getElem?.1
    (GrammarDefinition.mem_nonterminalNames.2 ⟨named, hmem, rfl⟩)
  have hfind := h.findNonterminal?_iff.2 hv
  have hlhs : p.lhs = v := by rw [ht.lhs, hfind, Option.getD_some]
  obtain ⟨hspell, hrange⟩ := h.spelled (h.reachable.isTokenName named hmem) ht.rhs
  rw [← hlhs] at hv hfind
  exact ⟨h.symbolName_nonterminal hv, hspell, lt_of_findNonterminal? hfind, hrange⟩

/-- A grammar that a definition resolves to when it passes the checks. -/
structure Grammar.Spells (g : Grammar) (d : GrammarDefinition) : Prop where
  lists : g.symbols.Lists d
  productions : List.Forall₂ g.symbols.Translates d.productions g.productions.toList
  ne_nil : d.productions ≠ []
  first : g.first = firstTable g.numNonterminals g.productions.toList

namespace Grammar.Spells

variable {g : Grammar} {d : GrammarDefinition} {p : Production} {named : NamedProduction}
  {seq seq' : List Symbol} {names : List String} {v : Nat}

/-- Each production of the definition has one in the grammar. -/
theorem exists_production (h : g.Spells d) (hnamed : named ∈ d.productions) :
    ∃ p ∈ g.productions, g.symbols.Writes named p := by
  obtain ⟨p, hp, ht⟩ := exists_mem_of_forall₂ h.productions hnamed
  exact ⟨p, Array.mem_toList_iff.1 hp, ht.writes h.lists hnamed⟩

/-- Each production of the grammar comes from one of the definition. -/
theorem exists_named (h : g.Spells d) (hp : p ∈ g.productions) :
    ∃ named ∈ d.productions, g.symbols.Writes named p := by
  have hall : List.Forall₂ (fun q named => named ∈ d.productions ∧ g.symbols.Translates named q)
      g.productions.toList d.productions :=
    ((List.forall₂_and_left d.productions _).2 ⟨fun _ hn => hn, h.productions⟩).flip
  obtain ⟨named, hnamed, -, ht⟩ := exists_mem_of_forall₂ hall (Array.mem_toList_iff.2 hp)
  exact ⟨named, hnamed, ht.writes h.lists hnamed⟩

/-- A grammar and its table agree about the range of symbols. -/
theorem inRange_iff {s : Symbol} : g.symbols.InRange s ↔ g.InRange s := by
  cases s <;> exact Iff.rfl

/-- A grammar that spells a definition is well formed. -/
theorem wellFormed (h : g.Spells d) : g.WellFormed := by
  refine ⟨?_, ?_, ?_, ?_, h.first⟩
  · rw [← Array.length_toList, ← h.productions.length_eq]
    exact List.length_pos_iff.2 h.ne_nil
  · exact (Array.getElem?_eq_some_iff.1 h.lists.endFirst).choose
  · intro p hp
    obtain ⟨named, -, hwrites⟩ := h.exists_named hp
    exact hwrites.lhs_lt
  · intro p hp s hs
    obtain ⟨named, -, hwrites⟩ := h.exists_named hp
    exact inRange_iff.1 (hwrites.inRange s hs)

/-- The start symbol has the name of the first left-hand side. -/
theorem startName?_eq (h : g.Spells d) :
    d.startName? = some (g.symbols.symbolName (.nonterminal g.start)) := by
  obtain ⟨named, rest, hlist⟩ := List.exists_cons_of_ne_nil h.ne_nil
  have hproductions := h.productions
  rw [hlist] at hproductions
  obtain ⟨p, tail, ht, -, hg⟩ := List.forall₂_cons_left_iff.1 hproductions
  have hwrites := ht.writes h.lists (hlist ▸ List.mem_cons_self)
  have hstart : g.start = p.lhs := by rw [Grammar.start, hg, startSymbol]
  rw [hstart, hwrites.lhs, GrammarDefinition.startName?, hlist]
  rfl

/-! ### Derivations

A sequence of symbols in range is spelled by names, and a step keeps it in range.  So each step by
numbers is one by names, and the other way round. -/

/-- A step with numbers is a step with their names, and keeps the numbers in the range. -/
theorem produces (h : g.Spells d) (hstep : g.Produces seq seq')
    (hseq : ∀ s ∈ seq, g.symbols.InRange s) :
    d.Produces (seq.map g.symbols.symbolName) (seq'.map g.symbols.symbolName) ∧
      ∀ s ∈ seq', g.symbols.InRange s := by
  obtain ⟨u, v, hp⟩ := hstep
  obtain ⟨named, hnamed, hwrites⟩ := h.exists_named hp
  rw [List.forall_mem_append, List.forall_mem_cons] at hseq
  rw [List.forall_mem_append, List.forall_mem_append]
  refine ⟨?_, hseq.1, hwrites.inRange, hseq.2.2⟩
  rw [List.map_append, List.map_cons, List.map_append, List.map_append, hwrites.lhs, hwrites.rhs]
  exact .replace _ _ hnamed

/-- A step with names is one with their numbers. -/
theorem exists_produces (h : g.Spells d) (hseq : ∀ s ∈ seq, g.symbols.InRange s)
    (hstep : d.Produces (seq.map g.symbols.symbolName) names) :
    ∃ seq', g.Produces seq seq' ∧ seq'.map g.symbols.symbolName = names := by
  generalize hbefore : seq.map g.symbols.symbolName = before at hstep
  obtain ⟨u, v, hnamed⟩ := hstep
  obtain ⟨p, hp, hwrites⟩ := h.exists_production hnamed
  obtain ⟨left, right', rfl, rfl, hright'⟩ := List.map_eq_append_iff.1 hbefore
  obtain ⟨s, right, rfl, hs, rfl⟩ := List.map_eq_cons_iff.1 hright'
  -- names stand for one symbol only, so the one that is replaced is the left-hand side
  have hsymbol : s = .nonterminal p.lhs := by
    refine h.lists.symbolName_inj (hseq s (by simp)) hwrites.lhs_lt ?_
    rw [hs, hwrites.lhs]
  subst hsymbol
  refine ⟨left ++ (p.rhs ++ right), .replace _ _ hp, ?_⟩
  rw [List.map_append, List.map_append, hwrites.rhs]

/-- **What is derived with numbers is derived with their names**, and the numbers stay in the
range. -/
theorem derives (h : g.Spells d) (hderives : g.Derives seq seq')
    (hseq : ∀ s ∈ seq, g.symbols.InRange s) :
    d.Derives (seq.map g.symbols.symbolName) (seq'.map g.symbols.symbolName) ∧
      ∀ s ∈ seq', g.symbols.InRange s := by
  induction hderives with
  | refl => exact ⟨.refl, hseq⟩
  | tail _ hstep ih =>
    obtain ⟨hmiddle, hrange⟩ := ih
    obtain ⟨hnext, hrange'⟩ := h.produces hstep hrange
    exact ⟨hmiddle.tail hnext, hrange'⟩

/-- **What is derived with names is derived with their numbers.** -/
theorem exists_derives (h : g.Spells d) (hseq : ∀ s ∈ seq, g.symbols.InRange s)
    (hderives : d.Derives (seq.map g.symbols.symbolName) names) :
    ∃ seq', g.Derives seq seq' ∧ (∀ s ∈ seq', g.symbols.InRange s) ∧
      seq'.map g.symbols.symbolName = names := by
  unfold GrammarDefinition.Derives at hderives
  induction hderives with
  | refl => exact ⟨seq, .refl, hseq, rfl⟩
  | tail _ hstep ih =>
    obtain ⟨middle, hmiddle, hrange, rfl⟩ := ih
    obtain ⟨seq', hstep', rfl⟩ := h.exists_produces hrange hstep
    exact ⟨seq', hmiddle.tail hstep', (h.produces hstep' hrange).2, rfl⟩

/-- A sequence of one nonterminal in range is in range. -/
theorem inRange_single (hv : v < g.numNonterminals) :
    ∀ s ∈ [Symbol.nonterminal v], g.symbols.InRange s := by
  intro s hs
  obtain rfl := List.mem_singleton.1 hs
  exact hv

/-- **The same nonterminals occur.** -/
theorem occurs_iff (h : g.Spells d) (hv : v < g.numNonterminals) :
    d.Occurs (g.symbols.symbolName (.nonterminal v)) ↔ g.Occurs v := by
  have hstart := inRange_single h.wellFormed.start_lt
  constructor
  · rintro ⟨start, hname, before, behind, hderives⟩
    obtain rfl := Option.some.inj (h.startName?_eq.symm.trans hname)
    obtain ⟨seq, hseq, hrange, hmap⟩ := h.exists_derives hstart hderives
    obtain ⟨u, rest, rfl, -, hrest⟩ := List.map_eq_append_iff.1 hmap
    obtain ⟨s, w, rfl, hs, -⟩ := List.map_eq_cons_iff.1 hrest
    have hsymbol : s = .nonterminal v := h.lists.symbolName_inj (hrange s (by simp)) hv hs
    exact ⟨u, w, hsymbol ▸ hseq⟩
  · rintro ⟨u, w, hderives⟩
    have hnames := (h.derives hderives hstart).1
    rw [List.map_append, List.map_cons] at hnames
    exact ⟨_, h.startName?_eq, _, _, hnames⟩

/-- **The same nonterminals are productive.** -/
theorem productive_iff (h : g.Spells d) (hv : v < g.numNonterminals) :
    d.IsProductive (g.symbols.symbolName (.nonterminal v)) ↔ g.Productive v := by
  constructor
  · rintro ⟨names, hderives, htokens⟩
    obtain ⟨seq, hseq, hrange, rfl⟩ := h.exists_derives (inRange_single hv) hderives
    -- a sequence whose names are those of tokens is a sentence
    have hterminal : ∀ s ∈ seq, ∃ t, s = .terminal t := fun s hs =>
      (h.lists.isToken_symbolName_iff (hrange s hs)).1 (htokens _ (List.mem_map_of_mem hs))
    have hsentence : ∃ w, g.Derives seq (sentence w) := exists_sentence fun u hu => by
      obtain ⟨t, ht⟩ := hterminal _ hu
      cases ht
    obtain ⟨w, hw⟩ := hsentence
    exact ⟨w, hseq.trans hw⟩
  · rintro ⟨w, hderives⟩
    obtain ⟨hnames, hrange⟩ := h.derives hderives (inRange_single hv)
    refine ⟨_, hnames, fun n hn => ?_⟩
    obtain ⟨s, hs, rfl⟩ := List.mem_map.1 hn
    obtain ⟨t, -, rfl⟩ := List.mem_map.1 hs
    exact (h.lists.isToken_symbolName_iff (hrange _ hs)).2 ⟨t, rfl⟩

end Grammar.Spells

end FrontEnd
