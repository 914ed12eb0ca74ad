import FrontEnd.Proofs.Grammar.Resolve

/-!
# Levels of precedence

Each declaration of precedence makes a level above all others.  What else is done to a definition
does not change how a token binds, so a token keeps the number of its level and its associativity.

## Main Definitions

* `GrammarDefinition.Declares` — a definition with its levels in the order of their declaration

## Main Statements

* `GrammarDefinition.Declares.get?_tokens` — how the tokens of a level bind

## Design Notes

`GrammarDefinition.Declares` follows the history of a definition and keeps only what it says about
levels.  Declaring tokens and adding productions leave the levels as they are.  A declaration of
precedence that fails, or that names nothing, has no constructor, since it leaves the whole
definition as it is.
-/

namespace FrontEnd

namespace GrammarDefinition

variable {d : GrammarDefinition} {levels : List (Associativity × List String)} {name : String}

/-- A definition that the operations have built, with its levels in the order of their declaration.
A declaration that fails, or that names nothing, leaves the definition as it is. -/
inductive Declares : GrammarDefinition → List (Associativity × List String) → Prop
  | empty : Declares empty []
  | tokens {d : GrammarDefinition} {levels : List (Associativity × List String)} (text : String) :
    Declares d levels → Declares (d.declareTokens text).2 levels
  | precedence {d : GrammarDefinition} {levels : List (Associativity × List String)}
    (associativity : Associativity) (text : String) :
    Declares d levels → (d.declarePrecedence associativity text).1 = .ok () → words text ≠ [] →
      Declares (d.declarePrecedence associativity text).2
        (levels ++ [(associativity, words text)])
  | productions {d : GrammarDefinition} {levels : List (Associativity × List String)}
    (lhs rhs : String) : Declares d levels → Declares (d.addProductions lhs rhs).2 levels

/-- A definition with its levels can be built. -/
theorem Declares.reachable (h : d.Declares levels) : d.Reachable := by
  induction h with
  | empty => exact .empty
  | tokens text _ ih => exact .tokens text ih
  | precedence associativity text _ _ _ ih => exact .precedence associativity text ih
  | productions lhs rhs _ ih => exact .productions lhs rhs ih

/-! ### Names of tokens

The names of declared tokens and of left-hand sides are those that the text of an operation may
contain.  Operations that fail enter nothing. -/

/-- Names that are entered one after the other into a table of token names leave one, whatever
entering does to the values. -/
theorem isTokenName_of_mem_foldl {β : Type} {put : NameTable β → String → NameTable β}
    (hput : ∀ table new, ∀ other ∈ (put table new).names.toList,
      other ∈ table.names.toList ∨ other = new)
    {names : List String} (hnames : ∀ n ∈ names, isTokenName n = true) {table : NameTable β}
    (htable : ∀ n ∈ table.names.toList, isTokenName n = true) :
    ∀ n ∈ (names.foldl put table).names.toList, isTokenName n = true := by
  refine List.foldlRecOn (motive := fun table : NameTable β =>
    ∀ n ∈ table.names.toList, isTokenName n = true) names put htable ?_
  intro table htable new hnew n hn
  rcases hput table new n hn with hn | rfl
  · exact htable n hn
  · exact hnames n hnew

/-- Without a fault the names that get a precedence are those of tokens, and have none yet. -/
theorem isTokenName_of_precedenceFault? {names : List String}
    (h : d.precedenceFault? names = none) :
    ∀ n ∈ names, FrontEnd.isTokenName n = true ∧ d.hasPrecedence n = false := by
  induction names with
  | nil => simp
  | cons name names ih =>
    unfold precedenceFault? at h
    split at h
    · cases h
    · split at h
      · cases h
      · next hname hprecedence =>
        exact List.forall_mem_cons.2 ⟨⟨by simpa using hname, by simpa using hprecedence⟩, ih h⟩

/-- The tokens of a definition have names of tokens. -/
theorem Reachable.isTokenName_tokens (h : d.Reachable) :
    ∀ n ∈ d.tokens.names.toList, FrontEnd.isTokenName n = true := by
  have hdeclare : ∀ (table : NameTable (Option Precedence)) (new : String),
      ∀ other ∈ (table.declare new none).names.toList, other ∈ table.names.toList ∨ other = new :=
    fun _ _ _ => NameTable.mem_names_declare
  induction h with
  | empty => simp [GrammarDefinition.empty, NameTable.empty]
  | tokens text _ ih =>
    unfold declareTokens
    dsimp only
    split
    · exact ih
    · next hnone =>
      have hnames := List.find?_eq_none.1 hnone
      exact isTokenName_of_mem_foldl hdeclare (fun n hn => by simpa using hnames n hn) ih
  | precedence associativity text _ ih =>
    unfold declarePrecedence
    dsimp only
    split
    · exact ih
    · next hnone =>
      split
      · exact ih
      · exact isTokenName_of_mem_foldl (fun _ _ _ => NameTable.mem_names_put)
          (fun n hn => (isTokenName_of_precedenceFault? hnone n hn).1) ih
  | productions lhs rhs _ ih =>
    unfold addProductions
    split
    · exact ih
    · split
      · exact ih
      · refine isTokenName_of_mem_foldl hdeclare (fun n hn => ?_) ih
        have hliteral : isLiteral n = true := (List.mem_filter.1 hn).2
        rw [FrontEnd.isTokenName, hliteral, Bool.or_true]

/-- All alternatives have the left-hand side that they are read for. -/
theorem lhs_of_readAlternatives {lhs : String} {names : List String} {a : Alternative}
    {alternatives : List NamedProduction}
    (h : readAlternatives lhs names a = .ok alternatives) : ∀ p ∈ alternatives, p.lhs = lhs := by
  fun_induction readAlternatives lhs names a generalizing alternatives with
  | case1 a =>
    obtain rfl := Except.ok.inj h
    intro p hp
    obtain rfl := List.mem_singleton.1 hp
    rfl
  | case2 rest a ih =>
    obtain ⟨others, hothers, rfl⟩ := exists_of_map_eq_ok h
    exact List.forall_mem_cons.2 ⟨rfl, ih hothers⟩
  | case3 rest a _ _ ih => exact ih h
  | case7 a token rest _ _ _ _ ih => exact ih h
  | case11 name rest a _ _ _ _ _ hname ih => exact ih h
  | _ => cases h

/-- The left-hand sides are identifiers. -/
theorem Reachable.isIdentifier_lhs (h : d.Reachable) :
    ∀ p ∈ d.productions, isIdentifier p.lhs = true := by
  refine h.forall_productions fun lhs names alternatives hlhs halternatives p hp => ?_
  rw [lhs_of_readAlternatives halternatives p hp]
  exact hlhs

/-! ### Levels

What entering tokens does to the value of one name.  Tokens that are declared keep the value of a
known name, and those of a level get the one of this level. -/

/-- Names that are declared keep the values that are known. -/
theorem get?_foldl_declare {tokens : NameTable (Option Precedence)} {known : Option Precedence}
    (names : List String) (h : tokens.get? name = some known) :
    (names.foldl (fun tokens name => tokens.declare name none) tokens).get? name = some known :=
  List.foldlRecOn (motive := fun tokens : NameTable (Option Precedence) =>
    tokens.get? name = some known) names _ h fun _ htable _ _ =>
      NameTable.get?_declare_of_some htable

/-- Names of a level get its value, and all others keep theirs. -/
theorem get?_foldl_put {tokens : NameTable (Option Precedence)} {value : Option Precedence}
    (names : List String) :
    (names.foldl (fun tokens name => tokens.put name value) tokens).get? name =
      if name ∈ names then some value else tokens.get? name := by
  induction names generalizing tokens with
  | nil => rfl
  | cons new names ih =>
    rw [List.foldl_cons, ih, NameTable.get?_put]
    simp only [List.mem_cons, eq_comm (a := new)]
    split <;> split <;> simp_all

/-- A declaration that does not fail leaves a definition alone, or makes a level of tokens that had
no precedence. -/
theorem declarePrecedence_eq {associativity : Associativity} {text : String}
    (h : (d.declarePrecedence associativity text).1 = .ok ()) (hne : words text ≠ []) :
    (∀ n ∈ words text, d.hasPrecedence n = false) ∧
      (d.declarePrecedence associativity text).2 = { d with
        numLevels := narrow16 (d.numLevels + 1)
        tokens := (words text).foldl
          (fun tokens name => tokens.put name
            (some ⟨narrow16 (d.numLevels + 1), associativity⟩)) d.tokens } := by
  unfold declarePrecedence at h ⊢
  dsimp only at h ⊢
  split at h
  · cases h
  · next hnone =>
    refine ⟨fun n hn => (isTokenName_of_precedenceFault? hnone n hn).2, ?_⟩
    rw [if_neg (by simpa using hne)]

/-- **How the tokens of a level bind**: by the number of the level, counted from one, and by its
associativity. -/
theorem Declares.get?_tokens (h : d.Declares levels) (hlength : levels.length < 65536) :
    d.numLevels = levels.length ∧ ∀ (n : Nat) associativity names,
      levels[n]? = some (associativity, names) → ∀ name ∈ names,
        d.tokens.get? name = some (some ⟨n + 1, associativity⟩) := by
  induction h with
  | empty => simp [GrammarDefinition.empty]
  | tokens text _ ih =>
    obtain ⟨hnum, hget⟩ := ih hlength
    unfold declareTokens
    dsimp only
    split
    · exact ⟨hnum, hget⟩
    · exact ⟨hnum, fun n a names hn name hname =>
        get?_foldl_declare _ (hget n a names hn name hname)⟩
  | @precedence d levels associativity text _ hok hne ih =>
    rw [List.length_append, List.length_singleton] at hlength
    obtain ⟨hnum, hget⟩ := ih (Nat.lt_of_succ_lt hlength)
    obtain ⟨hfree, heq⟩ := declarePrecedence_eq hok hne
    rw [hnum, narrow16_of_lt hlength] at heq
    rw [heq]
    refine ⟨by rw [List.length_append]; rfl, fun n a names hn name hname => ?_⟩
    dsimp only
    rw [get?_foldl_put]
    -- the tokens of an earlier level are not named again, since they have a precedence
    rcases Nat.lt_or_ge n levels.length with hlt | hge
    · rw [List.getElem?_append_left hlt] at hn
      have hknown := hget n a names hn name hname
      rw [if_neg, hknown]
      intro hmem
      have hnot := hfree name hmem
      rw [hasPrecedence, hknown] at hnot
      cases hnot
    · rw [List.getElem?_append_right hge] at hn
      obtain ⟨hzero, hlast⟩ := List.getElem?_eq_some_iff.1 hn
      have hn : n = levels.length := by
        rw [List.length_singleton] at hzero
        omega
      subst hn
      simp at hlast
      obtain ⟨rfl, rfl⟩ := hlast
      rw [if_pos hname]
  | productions lhs rhs _ ih =>
    obtain ⟨hnum, hget⟩ := ih hlength
    unfold addProductions
    split
    · exact ⟨hnum, hget⟩
    · split
      · exact ⟨hnum, hget⟩
      · exact ⟨hnum, fun n a names hn name hname =>
          get?_foldl_declare _ (hget n a names hn name hname)⟩

end GrammarDefinition

end FrontEnd
