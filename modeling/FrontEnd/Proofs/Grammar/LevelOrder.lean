import FrontEnd.Proofs.Refusals
import FrontEnd.Proofs.Text.Bytes

/-!
# The order of precedence levels

Each declaration of precedence makes a level, and its tokens bind by the number of the level and by
its associativity, whatever is done to the definition afterwards.  The number is cut to 16 bits, so
later levels are above all earlier ones as long as there are fewer than 65536, and not any more from
there on.

## Main Definitions

* `GrammarDefinition.precedenceOf?` — the precedence that has been declared for a token
* `GrammarDefinition.level?` — the level that a change has declared
* `GrammarDefinition.LevelOrder` — what levels have to do with the precedences of tokens

## Main Statements

* `GrammarDefinition.apply_cases` — what one change does to precedences
* `GrammarDefinition.precedenceOf?_performAll` — the precedences behind changes
* `GrammarDefinition.levelOrder_performAll` — tokens bind by the levels that have been declared
* `GrammarDefinition.level_not_above` — a later level can be below an earlier one

## Design Notes

A definition is seen as what its changes have done to precedences, so that nothing has to be known
about tables of tokens.  `GrammarDefinition.apply_cases` says everything that one change can do, and
the precedences behind any changes follow by induction over them, from the last change to the first
one.
-/

namespace FrontEnd

namespace GrammarDefinition

variable {d : GrammarDefinition}

/-- The precedence that has been declared for a token. -/
def precedenceOf? (d : GrammarDefinition) (name : String) : Option Precedence :=
  (d.tokens.get? name).join

/-- The level that a change has declared: its associativity and the names of its tokens, of which
there is one at least. -/
def level? : Change × Except GrammarFault (Option Nat) → Option (Associativity × List String)
  | (.precedence associativity text, .ok _) =>
    if words text = [] then none else some (associativity, words text)
  | _ => none

/-- No precedence has been declared at the start. -/
theorem precedenceOf?_empty (name : String) : empty.precedenceOf? name = none := by
  simp [precedenceOf?, empty, NameTable.empty, NameTable.get?, NameTable.indexOf?, NameList.empty,
    NameList.indexOf?]

/-! ### Changes

One change declares at most one level, and only for tokens that have no precedence yet.  This is why
a precedence, once it is there, is never overwritten. -/

/-- Names that are declared without a precedence do not change the precedence of any token. -/
theorem join_get?_foldl_declare (tokens : NameTable (Option Precedence)) (names : List String)
    (name : String) :
    ((names.foldl (fun tokens name => tokens.declare name none) tokens).get? name).join =
      (tokens.get? name).join := by
  refine List.foldlRecOn (motive := fun last : NameTable (Option Precedence) =>
    (last.get? name).join = (tokens.get? name).join) names _ rfl ?_
  intro last ih new _
  rw [← ih]
  unfold NameTable.declare
  split
  · rfl
  next hnew =>
  rw [NameTable.get?_push]
  split
  · next heq =>
    subst heq
    rw [NameTable.get?, hnew]
    rfl
  · rfl

/-- Tokens are declared without touching levels or precedences, also when they are known. -/
theorem precedenceOf?_declareTokens (text name : String) :
    (d.declareTokens text).2.numLevels = d.numLevels ∧
      (d.declareTokens text).2.precedenceOf? name = d.precedenceOf? name := by
  unfold declareTokens
  dsimp only
  split
  · exact ⟨rfl, rfl⟩
  · exact ⟨rfl, join_get?_foldl_declare _ _ name⟩

/-- Literals of productions are entered without touching levels or precedences. -/
theorem precedenceOf?_addProductions (lhs rhs name : String) :
    (d.addProductions lhs rhs).2.numLevels = d.numLevels ∧
      (d.addProductions lhs rhs).2.precedenceOf? name = d.precedenceOf? name := by
  unfold addProductions
  split
  · exact ⟨rfl, rfl⟩
  split
  · exact ⟨rfl, rfl⟩
  · exact ⟨rfl, join_get?_foldl_declare _ _ name⟩

theorem declarePrecedence_of_nil {associativity : Associativity} {text : String}
    (h : words text = []) : d.declarePrecedence associativity text = (.ok (), d) := by
  unfold declarePrecedence
  dsimp only
  rw [h]
  rfl

/-- A change declares no level and keeps all precedences, or it declares one for tokens that had
none: the number behind that of the latest level, cut to 16 bits. -/
theorem apply_cases (d : GrammarDefinition) (c : Change) :
    (level? (c, (d.apply c).1) = none ∧ (d.apply c).2.numLevels = d.numLevels ∧
      ∀ name, (d.apply c).2.precedenceOf? name = d.precedenceOf? name) ∨
    ∃ associativity names, level? (c, (d.apply c).1) = some (associativity, names) ∧
      (d.apply c).2.numLevels = narrow16 (d.numLevels + 1) ∧
      (∀ name ∈ names, d.precedenceOf? name = none) ∧
      ∀ name, (d.apply c).2.precedenceOf? name =
        if name ∈ names then some ⟨narrow16 (d.numLevels + 1), associativity⟩
        else d.precedenceOf? name := by
  cases c with
  | tokens text =>
    exact .inl ⟨rfl, (precedenceOf?_declareTokens text text).1,
      fun name => (precedenceOf?_declareTokens text name).2⟩
  | productions lhs rhs =>
    exact .inl ⟨rfl, (precedenceOf?_addProductions lhs rhs lhs).1,
      fun name => (precedenceOf?_addProductions lhs rhs name).2⟩
  | precedence associativity text =>
    rcases hchange : d.declarePrecedence associativity text with ⟨answer, e⟩
    cases answer with
    | error fault =>
      have happly : d.apply (.precedence associativity text) = (.error fault, e) := by
        rw [apply, hchange]
        rfl
      obtain rfl := d.apply_error _ e fault happly
      rw [happly]
      exact .inl ⟨rfl, rfl, fun _ => rfl⟩
    | ok u =>
      have happly : d.apply (.precedence associativity text) = (.ok none, e) := by
        rw [apply, hchange]
        rfl
      rw [happly]
      by_cases hnil : words text = []
      · rw [declarePrecedence_of_nil hnil] at hchange
        obtain rfl := (Prod.mk.inj hchange).2
        exact .inl ⟨if_pos hnil, rfl, fun _ => rfl⟩
      · obtain ⟨hfree, heq⟩ := declarePrecedence_eq (congrArg Prod.fst hchange) hnil
        rw [hchange] at heq
        obtain rfl : e = _ := heq
        refine .inr ⟨associativity, words text, if_neg hnil, rfl, fun name hname => ?_, ?_⟩
        · have hnone := hfree name hname
          rw [hasPrecedence, Option.isSome_eq_false_iff, Option.isNone_iff_eq_none] at hnone
          exact hnone
        · intro name
          rw [precedenceOf?, get?_foldl_put]
          split <;> rfl

/-- **The precedences behind changes** are those in front of them and those of the levels that the
changes have declared. -/
theorem precedenceOf?_performAll (d : GrammarDefinition) (changes : List Change) (name : String)
    (p : Precedence) :
    (performAll apply d changes).2.precedenceOf? name = some p ↔
      d.precedenceOf? name = some p ∨ ∃ n associativity names,
        ((performAll apply d changes).1.filterMap level?)[n]? = some (associativity, names) ∧
          name ∈ names ∧ p = ⟨narrow16 (d.numLevels + n + 1), associativity⟩ := by
  induction changes generalizing d with
  | nil => simp [performAll]
  | cons c changes ih =>
    simp only [performAll]
    rw [ih]
    rcases d.apply_cases c with ⟨hnone, hnum, hkept⟩ |
      ⟨associativity, names, hsome, hnum, hfree, hafter⟩
    · rw [List.filterMap_cons_none hnone, hnum, hkept]
    · have hshift : ∀ n, narrow16 (narrow16 (d.numLevels + 1) + n + 1) =
          narrow16 (d.numLevels + (n + 1) + 1) := by
        intro n
        unfold narrow16
        omega
      -- the tokens of the new level had no precedence
      have hnew : (d.apply c).2.precedenceOf? name = some p ↔ d.precedenceOf? name = some p ∨
          name ∈ names ∧ p = ⟨narrow16 (d.numLevels + 1), associativity⟩ := by
        rw [hafter]
        by_cases hmem : name ∈ names
        · simp [hmem, hfree name hmem, eq_comm]
        · simp [hmem]
      rw [List.filterMap_cons_some hsome, hnum, hnew, or_assoc]
      refine or_congr_right ⟨?_, ?_⟩
      · rintro (⟨hmem, rfl⟩ | ⟨n, a, others, hn, hmem, rfl⟩)
        · exact ⟨0, associativity, names, rfl, hmem, rfl⟩
        · exact ⟨n + 1, a, others, hn, hmem, by rw [hshift]⟩
      · rintro ⟨_ | n, a, others, hn, hmem, rfl⟩
        · obtain ⟨rfl, rfl⟩ := Prod.mk.inj (Option.some.inj hn)
          exact .inl ⟨hmem, rfl⟩
        · exact .inr ⟨n, a, others, hn, hmem, by rw [hshift]⟩

/-- A level has a token. -/
theorem ne_nil_of_level? {answer : Change × Except GrammarFault (Option Nat)}
    {level : Associativity × List String} (h : level? answer = some level) : level.2 ≠ [] := by
  obtain ⟨c, result⟩ := answer
  cases c with
  | tokens text => cases h
  | productions lhs rhs => cases h
  | precedence associativity text =>
    cases result with
    | error fault => cases h
    | ok a =>
      change (if words text = [] then none else some (associativity, words text)) = _ at h
      split at h
      · cases h
      · next hne =>
        obtain rfl := Option.some.inj h
        exact hne

/-- Changes lead to definitions that can be built. -/
theorem reachable_performAll (hd : d.Reachable) (changes : List Change) :
    (performAll apply d changes).2.Reachable := by
  induction changes generalizing d with
  | nil => exact hd
  | cons c changes ih => exact ih (hd.apply c)

/-! ### Levels and precedences

The levels that changes have declared, in their order, against the precedences of tokens behind all
changes.  The number of a level is its place among them as long as the places fit into 16 bits. -/

/-- The tokens of each level bind tighter than those of all earlier levels. -/
def LaterTighter (d : GrammarDefinition) (levels : List (Associativity × List String)) : Prop :=
  ∀ (m n : Nat) (earlier later : Associativity × List String), m < n →
    levels[m]? = some earlier → levels[n]? = some later →
      ∀ name ∈ earlier.2, ∀ other ∈ later.2, ∃ p q, d.precedenceOf? name = some p ∧
        d.precedenceOf? other = some q ∧ p.level < q.level

/-- How the tokens of a definition bind whose changes have declared some levels, in this order. -/
structure LevelOrder (d : GrammarDefinition) (levels : List (Associativity × List String)) :
    Prop where
  /-- A token binds by the number of the level that names it, counted from one and cut to 16 bits,
  and by the associativity of this level.  The other tokens have no precedence. -/
  precedenceOf?_iff : ∀ name p, d.precedenceOf? name = some p ↔ ∃ n associativity names,
    levels[n]? = some (associativity, names) ∧ name ∈ names ∧ p = ⟨narrow16 (n + 1), associativity⟩
  /-- Further changes keep the precedences, whether they fail or not. -/
  kept : ∀ changes name p, d.precedenceOf? name = some p →
    (performAll apply d changes).2.precedenceOf? name = some p
  /-- Later levels are tighter as long as there are fewer than 65536, and not any more from there
  on. -/
  laterTighter_iff : d.LaterTighter levels ↔ levels.length < 65536
  /-- The tokens of the grammar bind as they do in its definition. -/
  precedence?_eq : ∀ g, d.resolve = .ok g → ∀ name t, d.tokenId? name = some t →
    g.symbols.precedence? t = d.precedenceOf? name

/-- Later levels are tighter as long as their numbers have 16 bits. -/
theorem laterTighter_iff_of_precedenceOf? {levels : List (Associativity × List String)}
    (hne : ∀ level ∈ levels, level.2 ≠ [])
    (hprecedence : ∀ n level, levels[n]? = some level → ∀ name ∈ level.2,
      d.precedenceOf? name = some ⟨narrow16 (n + 1), level.1⟩) :
    d.LaterTighter levels ↔ levels.length < 65536 := by
  constructor
  · intro h
    by_contra hlength
    -- the level with the number 65536 is below the first one
    have hfirst := List.getElem?_eq_getElem (l := levels) (i := 0) (by omega)
    have hlast := List.getElem?_eq_getElem (l := levels) (i := 65535) (by omega)
    obtain ⟨name, hname⟩ := List.exists_mem_of_ne_nil _ (hne _ (List.mem_of_getElem? hfirst))
    obtain ⟨other, hother⟩ := List.exists_mem_of_ne_nil _ (hne _ (List.mem_of_getElem? hlast))
    obtain ⟨p, q, hp, hq, hlt⟩ :=
      h 0 65535 _ _ (Nat.zero_lt_succ _) hfirst hlast name hname other hother
    rw [hprecedence 0 _ hfirst name hname] at hp
    rw [hprecedence 65535 _ hlast other hother] at hq
    obtain rfl := Option.some.inj hp
    obtain rfl := Option.some.inj hq
    change narrow16 1 < narrow16 65536 at hlt
    exact absurd hlt (by decide)
  · intro hlength m n earlier later hmn hm hn name hname other hother
    have hlt := (List.getElem?_eq_some_iff.1 hn).choose
    refine ⟨_, _, hprecedence m _ hm name hname, hprecedence n _ hn other hother, ?_⟩
    show narrow16 (m + 1) < narrow16 (n + 1)
    rw [narrow16_of_lt (by omega), narrow16_of_lt (by omega)]
    omega

/-- **Tokens bind by the levels that have been declared**, whatever changes are made to a
definition. -/
theorem levelOrder_performAll (changes : List Change) :
    (performAll apply empty changes).2.LevelOrder
      ((performAll apply empty changes).1.filterMap level?) := by
  have hiff : ∀ name p, (performAll apply empty changes).2.precedenceOf? name = some p ↔
      ∃ n associativity names,
        ((performAll apply empty changes).1.filterMap level?)[n]? = some (associativity, names) ∧
          name ∈ names ∧ p = ⟨narrow16 (n + 1), associativity⟩ := by
    intro name p
    rw [precedenceOf?_performAll, precedenceOf?_empty]
    simp [empty]
  refine ⟨hiff, ?_, ?_, ?_⟩
  · intro later name p hp
    exact (precedenceOf?_performAll _ later name p).2 (.inl hp)
  · refine laterTighter_iff_of_precedenceOf? (fun level hlevel => ?_)
      fun n level hn name hname => ?_
    · obtain ⟨answer, -, hanswer⟩ := List.mem_filterMap.1 hlevel
      exact ne_nil_of_level? hanswer
    · exact (hiff name _).2 ⟨n, level.1, level.2, hn, hname, rfl⟩
  · intro g hg name t ht
    exact precedence?_eq_get? (reachable_performAll .empty changes) (terminals_of_resolve hg) ht

/-! ### More levels than numbers

From the 65536th level on the numbers begin anew, and a later level is below an earlier one.  The
levels that show it are declared for tokens with a number in their name, one for each. -/

/-- Identifiers have no blanks. -/
theorem isWord_of_isIdentifier {name : String} (h : isIdentifier name = true) : IsWord name := by
  have hblank : ∀ c, isAsciiBlank c = true → isIdentifierStart c = false ∧
      isIdentifierPart c = false := by
    intro c hc
    simp only [isAsciiBlank, Bool.or_eq_true, beq_iff_eq] at hc
    rcases hc with (((rfl | rfl) | rfl) | rfl) | rfl <;> exact ⟨by decide, by decide⟩
  unfold isIdentifier at h
  unfold IsWord
  cases hchars : name.toList with
  | nil => simp [hchars] at h
  | cons c cs =>
    rw [hchars] at h
    obtain ⟨hstart, hparts⟩ := Bool.and_eq_true_iff.1 h
    have hpart := List.all_eq_true.1 hparts
    refine ⟨List.cons_ne_nil _ _, List.forall_mem_cons.2 ⟨?_, fun b hb => ?_⟩⟩
    · exact Bool.eq_false_iff.2 fun hc => Bool.eq_false_iff.1 (hblank c hc).1 hstart
    · exact Bool.eq_false_iff.2 fun hc => Bool.eq_false_iff.1 (hblank b hc).2 (hpart b hb)

/-- A token without a precedence gets a level of its own, behind the others. -/
theorem level?_apply_of_new (associativity : Associativity) {name : String}
    (hname : isIdentifier name = true) (hnew : d.precedenceOf? name = none) :
    level? (.precedence associativity name, (d.apply (.precedence associativity name)).1) =
        some (associativity, [name]) ∧
      ∀ other ≠ name, (d.apply (.precedence associativity name)).2.precedenceOf? other =
        d.precedenceOf? other := by
  have hfault : d.precedenceFault? [name] = none := by
    have hprecedence : d.hasPrecedence name = false := by
      rw [hasPrecedence, show (d.tokens.get? name).join = none from hnew]
      rfl
    simp [precedenceFault?, isTokenName, hname, hprecedence]
  have hwords := words_of_isWord (isWord_of_isIdentifier hname)
  have hlevel : level? (.precedence associativity name,
      (d.apply (.precedence associativity name)).1) = some (associativity, [name]) := by
    have hok : (d.apply (.precedence associativity name)).1 = .ok none := by
      unfold apply declarePrecedence
      dsimp only
      rw [hwords, hfault]
      rfl
    rw [hok, level?, hwords, if_neg (List.cons_ne_nil _ _)]
  refine ⟨hlevel, fun other hother => ?_⟩
  rcases d.apply_cases (.precedence associativity name) with ⟨hnone, -⟩ |
    ⟨_, names, hsome, -, -, hafter⟩
  · rw [hlevel] at hnone
    cases hnone
  · obtain ⟨rfl, rfl⟩ := Prod.mk.inj (Option.some.inj (hlevel.symm.trans hsome))
    rw [hafter, if_neg (by simpa using hother)]

/-- Different tokens without a precedence get a level each. -/
theorem levels_performAll_of_new (associativity : Associativity) {names : List String}
    (hnames : ∀ name ∈ names, isIdentifier name = true)
    (hnodup : names.Nodup) (d : GrammarDefinition)
    (hnew : ∀ name ∈ names, d.precedenceOf? name = none) :
    (performAll apply d (names.map fun name => .precedence associativity name)).1.filterMap level? =
      names.map fun name => (associativity, [name]) := by
  induction names generalizing d with
  | nil => rfl
  | cons name names ih =>
    obtain ⟨hname, hnames⟩ := List.forall_mem_cons.1 hnames
    obtain ⟨hfirst, hrest⟩ := List.nodup_cons.1 hnodup
    obtain ⟨hnone, hnones⟩ := List.forall_mem_cons.1 hnew
    obtain ⟨hlevel, hkept⟩ := level?_apply_of_new associativity hname hnone
    simp only [List.map_cons, performAll]
    rw [List.filterMap_cons_some hlevel, ih hnames hrest _ fun other hother => ?_]
    rw [hkept other (fun heq => hfirst (heq ▸ hother)), hnones other hother]

/-- Declarations of levels with a numbered token each. -/
def numberedLevels (count : Nat) : List Change :=
  (numberedNames "T" count).map fun name => .precedence .left name

/-- A letter with a number behind it is an identifier. -/
theorem isIdentifier_of_mem_numberedNames {count : Nat} :
    ∀ name ∈ numberedNames "T" count, isIdentifier name = true := by
  intro name hname
  obtain ⟨n, -, rfl⟩ := List.mem_map.1 hname
  have hchars : ("T" ++ toString n).toList = 'T' :: Nat.toDigits 10 n := by
    rw [String.toList_append, toList_toString]
    rfl
  unfold isIdentifier
  rw [hchars]
  simp only [Bool.and_eq_true, List.all_eq_true]
  refine ⟨rfl, fun c hc => ?_⟩
  have hdigit : c.isDigit = true := Nat.isDigit_of_mem_toDigits (by decide) (by decide) hc
  simp [isIdentifierPart, Char.isAlphanum, hdigit]

/-- **A later level can be below an earlier one.**  Of 65536 levels the first one has the number 1,
and the last one the number 0. -/
theorem level_not_above :
    (performAll apply empty (numberedLevels 65536)).1.filterMap level? =
        (numberedNames "T" 65536).map (fun name => (.left, [name])) ∧
      (performAll apply empty (numberedLevels 65536)).2.precedenceOf? ("T" ++ toString 0) =
        some ⟨1, .left⟩ ∧
      (performAll apply empty (numberedLevels 65536)).2.precedenceOf? ("T" ++ toString 65535) =
        some ⟨0, .left⟩ := by
  have hlevels : (performAll apply empty (numberedLevels 65536)).1.filterMap level? =
      (numberedNames "T" 65536).map fun name => (.left, [name]) :=
    levels_performAll_of_new .left isIdentifier_of_mem_numberedNames
      (nodup_numberedNames "T" 65536) empty fun name _ => precedenceOf?_empty name
  have hbinds : ∀ n < 65536, (performAll apply empty (numberedLevels 65536)).2.precedenceOf?
      ("T" ++ toString n) = some ⟨narrow16 (empty.numLevels + n + 1), .left⟩ := by
    intro n hn
    rw [precedenceOf?_performAll, hlevels]
    refine .inr ⟨n, .left, ["T" ++ toString n], ?_, List.mem_singleton_self _, rfl⟩
    rw [List.getElem?_map, getElem?_numberedNames "T" hn]
    rfl
  exact ⟨hlevels, hbinds 0 (by decide), hbinds 65535 (by decide)⟩

end GrammarDefinition

end FrontEnd
