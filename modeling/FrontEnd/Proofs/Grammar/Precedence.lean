import FrontEnd.Proofs.Grammar.Faults
import FrontEnd.Proofs.Grammar.TokenIds

/-!
# Precedences of productions

A production that names a token has the precedence of this token.  Another one takes over that of a
terminal of its right-hand side: the last one that has a precedence, so terminals behind it that
have none are passed over.  This is the precedence of the last terminal only where that one has a
precedence, or where no terminal has.

## Main Definitions

* `SymbolTable.Inherits` — the precedence that a right-hand side hands on
* `lastTerminal?` — the last terminal of a right-hand side

## Main Statements

* `SymbolTable.Inherits.eq_lastTerminal?_iff` — when it is that of the last terminal
* `GrammarDefinition.precedence_of_production` — the precedence of each production

## Design Notes

The search for a precedence walks from the end of a right-hand side to its front and stops at the
first terminal that has one.  `SymbolTable.Inherits` says what it finds without the walk, and
`SymbolTable.Inherits.eq_lastTerminal?_iff` tells when this is the precedence of the last terminal.
-/

namespace FrontEnd

/-- The last terminal of a sequence. -/
def lastTerminal? (rhs : List Symbol) : Option TokenId := (rhs.filterMap Symbol.terminal?).getLast?

/-- The precedence that a right-hand side hands on: that of the last terminal that has one, and none
when no terminal has one. -/
inductive SymbolTable.Inherits (table : SymbolTable) : List Symbol → Option Precedence → Prop
  | last {t : TokenId} {binds : Precedence} (front : List Symbol) {back : List Symbol} :
    table.precedence? t = some binds → (∀ u, .terminal u ∈ back → table.precedence? u = none) →
      Inherits table (front ++ .terminal t :: back) (some binds)
  | nothing {rhs : List Symbol} :
    (∀ t, .terminal t ∈ rhs → table.precedence? t = none) → Inherits table rhs none

section Inheritance

variable {table : SymbolTable} {rhs : List Symbol} {inherited : Option Precedence}

/-- The last terminal is a symbol of the right-hand side. -/
theorem mem_of_lastTerminal? {t : TokenId} (h : lastTerminal? rhs = some t) :
    .terminal t ∈ rhs := by
  obtain ⟨s, hs, hst⟩ := List.mem_filterMap.1 (List.mem_of_getLast? h)
  cases s with
  | terminal u => exact Option.some.inj hst ▸ hs
  | nonterminal v => cases hst

theorem lastTerminal?_append_cons (front back : List Symbol) (t : TokenId) :
    lastTerminal? (front ++ .terminal t :: back) = some ((lastTerminal? back).getD t) := by
  have hcons : (Symbol.terminal t :: back).filterMap Symbol.terminal? =
      t :: back.filterMap Symbol.terminal? := rfl
  rw [lastTerminal?, List.filterMap_append, hcons, List.getLast?_append_cons, List.getLast?_cons,
    lastTerminal?]

/-- The search from the end finds what is handed on. -/
theorem inherits_lastPrecedence? (table : SymbolTable) (rhs : List Symbol) :
    table.Inherits rhs (lastPrecedence? table rhs) := by
  have hnone : ∀ s : Symbol, s.terminal?.bind table.precedence? = none ↔
      ∀ t, s = .terminal t → table.precedence? t = none := by
    intro s
    cases s <;> simp [Symbol.terminal?]
  cases h : lastPrecedence? table rhs with
  | none =>
    refine .nothing fun t ht => ?_
    exact (hnone _).1 (List.findSome?_eq_none_iff.1 h _ (List.mem_reverse.2 ht)) t rfl
  | some binds =>
    obtain ⟨back, s, front, hrhs, hs, hback⟩ := List.findSome?_eq_some_iff.1 h
    obtain ⟨t, ht, hbinds⟩ := Option.bind_eq_some_iff.1 hs
    cases s with
    | nonterminal v => cases ht
    | terminal u =>
      obtain rfl := Option.some.inj ht
      have heq : rhs = front.reverse ++ .terminal u :: back.reverse := by
        rw [List.reverse_eq_iff.1 hrhs, List.reverse_append, List.reverse_cons, List.append_assoc]
        rfl
      rw [heq]
      refine .last _ hbinds fun w hw => ?_
      exact (hnone _).1 (hback _ (List.mem_reverse.1 hw)) w rfl

/-- **What is handed on is the precedence of the last terminal** just when that one has a
precedence, or when no terminal has one. -/
theorem SymbolTable.Inherits.eq_lastTerminal?_iff (h : table.Inherits rhs inherited) :
    inherited = (lastTerminal? rhs).bind table.precedence? ↔
      ((lastTerminal? rhs).bind table.precedence?).isSome ∨
        ∀ t, .terminal t ∈ rhs → table.precedence? t = none := by
  cases h with
  | @last t binds front back ht hback =>
    rw [lastTerminal?_append_cons, Option.bind_some]
    constructor
    · intro heq
      exact .inl (heq ▸ rfl)
    · rintro (hsome | hnone)
      · cases hlast : lastTerminal? back with
        | none => simp [ht]
        | some u =>
          rw [hlast, Option.getD_some, hback u (mem_of_lastTerminal? hlast)] at hsome
          cases hsome
      · rw [hnone t (by simp)] at ht
        cases ht
  | nothing hnone =>
    refine ⟨fun _ => .inr hnone, fun _ => ?_⟩
    cases hlast : lastTerminal? rhs with
    | none => rfl
    | some t => exact (hnone t (mem_of_lastTerminal? hlast)).symm

end Inheritance

/-! ### The productions of a definition

The search works on numbers, and the precedences are those of a table of symbols.  In the grammar of
a definition the table gives each token the precedence that has been declared for it. -/

namespace GrammarDefinition

/-- **The precedence of each production.**  It is exactly that of the token that the production
names, also when this is none.  A production that names no token has the one that its right-hand
side hands on, so it has that of its last terminal just when the last terminal has one, or when no
terminal has. -/
theorem precedence_of_production {d : GrammarDefinition} {g : Grammar} {i : Nat}
    {p : NamedProduction} (hd : d.Reachable) (h : d.resolve = .ok g)
    (hp : d.productions[i]? = some p) :
    ∃ q, g.productions[i]? = some q ∧
      List.Forall₂ (fun n s => g.symbols.symbol? n = some s) p.rhs q.rhs ∧
      (∀ name, p.precedence = some name →
        ∃ t, d.tokenId? name = some t ∧ q.precedence = g.symbols.precedence? t) ∧
      (p.precedence = none → g.symbols.Inherits q.rhs q.precedence ∧
        (q.precedence = (lastTerminal? q.rhs).bind g.symbols.precedence? ↔
          ((lastTerminal? q.rhs).bind g.symbols.precedence?).isSome ∨
            ∀ t, .terminal t ∈ q.rhs → g.symbols.precedence? t = none)) := by
  obtain ⟨q, hq, htranslates⟩ := exists_getElem?_of_forall₂ (translates_of_resolve h) hp
  refine ⟨q, Array.getElem?_toList ▸ hq, htranslates.rhs, fun name hname => ?_, fun hnone => ?_⟩
  · obtain ⟨t, ht⟩ := htranslates.token name hname
    have hprecedence := htranslates.precedence
    rw [hname, SymbolTable.productionPrecedence?, ht, Option.bind_some] at hprecedence
    have htoken : isTokenName name = true :=
      hd.isTokenName_names p (List.mem_of_getElem? hp) name (by simp [NamedProduction.names, hname])
    rw [findTerminal?_eq_tokenId? hd (terminals_of_resolve h) htoken] at ht
    exact ⟨t, ht, hprecedence⟩
  · have hinherits : g.symbols.Inherits q.rhs q.precedence := by
      rw [htranslates.precedence, hnone]
      exact inherits_lastPrecedence? _ _
    exact ⟨hinherits, hinherits.eq_lastTerminal?_iff⟩

end GrammarDefinition

/-- Differences and negations, which bind tighter than differences. -/
def negations : GrammarDefinition :=
  ((((GrammarDefinition.empty.declareTokens "NUM").2.declarePrecedence .left
    "'-'").2.declarePrecedence .unspecified "NEG").2.addProductions "expr"
      "expr '-' expr | '-' expr %prec NEG | NUM").2

/-- A negation binds as the token that it names, and a difference as its operator. -/
theorem GrammarDefinition.precedence_of_production_negations :
    ∃ g difference negation, negations.resolve = .ok g ∧ g.productions[0]? = some difference ∧
      difference.precedence = some ⟨1, .left⟩ ∧ g.productions[1]? = some negation ∧
      negation.precedence = some ⟨2, .unspecified⟩ := by
  have hd : negations.Reachable :=
    .productions _ _ (.precedence _ _ (.precedence _ _ (.tokens _ .empty)))
  have hresolve : negations.resolve.map (fun g =>
      (g.productions[0]?.map Production.rhs, g.symbols.precedence? 2, g.symbols.precedence? 3)) =
      .ok (some [.nonterminal 0, .terminal 2, .nonterminal 0], some ⟨1, .left⟩,
        some ⟨2, .unspecified⟩) := by decide +kernel
  obtain ⟨g, hg, hvalues⟩ := exists_of_map_eq_ok hresolve
  simp only [Prod.mk.injEq] at hvalues
  obtain ⟨hrhs, hminus, hneg⟩ := hvalues
  obtain ⟨difference, hdifference, -, -, hnone⟩ := precedence_of_production hd hg (i := 0)
    (p := ⟨"expr", ["expr", "'-'", "expr"], none⟩) (by decide +kernel)
  obtain ⟨negation, hnegation, -, hname, -⟩ := precedence_of_production hd hg (i := 1)
    (p := ⟨"expr", ["'-'", "expr"], some "NEG"⟩) (by decide +kernel)
  refine ⟨g, difference, negation, hg, hdifference, ?_, hnegation, ?_⟩
  · rw [hdifference] at hrhs
    have hlast : (lastTerminal? difference.rhs).bind g.symbols.precedence? = some ⟨1, .left⟩ := by
      rw [Option.some.inj hrhs, ← hminus]
      rfl
    rw [(hnone rfl).2.2 (.inl (hlast ▸ rfl)), hlast]
  · obtain ⟨t, ht, hprecedence⟩ := hname "NEG" rfl
    obtain rfl : 3 = t := Option.some.inj (by rw [← ht]; decide +kernel)
    rw [hprecedence, hneg]

/-- Items, of which only the separator has a precedence. -/
def separatedItems : GrammarDefinition :=
  ((GrammarDefinition.empty.declareTokens "ITEM").2.declarePrecedence .left "','").2.addProductions
    "list" "list ',' ITEM | ITEM" |>.2

/-- The last terminal of a longer list is an item, which has no precedence, but the list has that of
the separator. -/
theorem GrammarDefinition.precedence_ne_lastTerminal_separatedItems :
    ∃ g q, separatedItems.resolve = .ok g ∧ g.productions[0]? = some q ∧
      separatedItems.productions[0]? = some ⟨"list", ["list", "','", "ITEM"], none⟩ ∧
      q.precedence = some ⟨1, .left⟩ ∧
      (lastTerminal? q.rhs).bind g.symbols.precedence? = none := by
  have hresolve : separatedItems.resolve.map (fun g => g.productions[0]?.map fun q =>
      (q.precedence, (lastTerminal? q.rhs).bind g.symbols.precedence?)) =
      .ok (some (some ⟨1, .left⟩, none)) := by decide +kernel
  obtain ⟨g, hg, hfirst⟩ := exists_of_map_eq_ok hresolve
  obtain ⟨q, hq, hprecedence⟩ := Option.map_eq_some_iff.1 hfirst
  obtain ⟨hprecedence, hlast⟩ := Prod.mk.inj hprecedence
  exact ⟨g, q, hg, hq, by decide +kernel, hprecedence, hlast⟩

end FrontEnd
