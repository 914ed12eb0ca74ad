import FrontEnd.Proofs.Grammar.TokenIds
import FrontEnd.Proofs.Text.Words

/-!
# Alternatives that are read back

A right-hand side writes the names of its alternatives, with directives between them.  Whatever
alternatives are written, and whatever blanks stand between the words, they are the productions that
are added.

## Main Definitions

* `NamedProduction.Writes` — the words that write an alternative

## Main Statements

* `readAlternatives_append_bar` — the alternatives in front of a bar are read by themselves
* `readAlternatives_of_writes` — alternatives are read back
* `NameTable.toList_foldl_declare` — declared names are entered behind the others, each of them once
* `GrammarDefinition.addProductions_of_writes` — what is written is added

## Design Notes

The text is cut into words first, so that blanks are no longer in the way; what remains is a pass
over words with one unfinished alternative.  Each kind of word has an equation that says how it
changes this alternative, under the conditions that make it a legal word there.  An alternative that
is written is then read by chaining these equations, and a bar ends it, which makes the other
alternatives independent of it.
-/

namespace FrontEnd

/-- The words that write an alternative: its names, with the directive for its precedence in front
of them, between them or behind them.  An alternative without names can be called empty, in front of
this directive or behind it. -/
inductive NamedProduction.Writes : NamedProduction → List String → Prop
  | names (lhs : String) (rhs : List String) : Writes ⟨lhs, rhs, none⟩ rhs
  | precedence (lhs : String) (before after : List String) (token : String) :
    Writes ⟨lhs, before ++ after, some token⟩ (before ++ "%prec" :: token :: after)
  | empty (lhs : String) : Writes ⟨lhs, [], none⟩ ["%empty"]
  | emptyPrecedence (lhs token : String) :
    Writes ⟨lhs, [], some token⟩ ["%empty", "%prec", token]
  | precedenceEmpty (lhs token : String) :
    Writes ⟨lhs, [], some token⟩ ["%prec", token, "%empty"]

/-! ### Words of a right-hand side

One equation for each kind of word.  The unfinished alternative appears in them as it stands, with
its precedence missing or its right-hand side still empty where a directive is legal only then.

The only induction over the reading itself is that of a bar: whatever has been read of the words in
front of it is read with the bar behind them, too. -/

section Words

variable {lhs name token : String} {names rest : List String} {a : Alternative}
  {productions : List NamedProduction}

/-- The name of a token is no directive and no bar. -/
theorem ne_of_isTokenName (h : isTokenName name = true) :
    name ≠ "|" ∧ name ≠ "%empty" ∧ name ≠ "%prec" ∧ name.toList.head? ≠ some '%' := by
  have hhead : name.toList.head? ≠ some '%' := by
    intro hpercent
    obtain ⟨cs, hcs⟩ := List.head?_eq_some_iff.1 hpercent
    have hnone : isTokenName name = false := by
      unfold isTokenName isIdentifier isLiteral
      rw [hcs]
      rfl
    rw [hnone] at h
    cases h
  refine ⟨?_, ?_, ?_, hhead⟩
  · rintro rfl
    exact absurd h (by decide)
  · rintro rfl
    exact hhead rfl
  · rintro rfl
    exact hhead rfl

/-- A name is put behind the right-hand side, unless the alternative has been called empty. -/
theorem readAlternatives_name (hname : isTokenName name = true) (ha : a.isEmpty = false) :
    readAlternatives lhs (name :: rest) a =
      readAlternatives lhs rest { a with rhs := a.rhs ++ [name] } := by
  obtain ⟨hbar, hempty, hprec, hhead⟩ := ne_of_isTokenName hname
  rw [readAlternatives.eq_def]
  simp only [hbar, hempty, hprec, hhead, ha, hname, if_false, if_true, Bool.false_eq_true]

/-- A bar completes the alternative and begins another one. -/
theorem readAlternatives_bar :
    readAlternatives lhs ("|" :: rest) a =
      (readAlternatives lhs rest Alternative.start).map (a.production lhs :: ·) := by
  rw [readAlternatives.eq_def]
  rfl

/-- A directive for the precedence is noted where there is none yet, and takes the name behind it.
-/
theorem readAlternatives_prec (htoken : isTokenName token = true) (ha : a.precedence = none) :
    readAlternatives lhs ("%prec" :: token :: rest) a =
      readAlternatives lhs rest { a with precedence := some token } := by
  rw [readAlternatives.eq_def]
  simp [ha, htoken]

/-- An alternative may be called empty as long as it has no names. -/
theorem readAlternatives_empty (ha : a.rhs = []) :
    readAlternatives lhs ("%empty" :: rest) a =
      readAlternatives lhs rest { a with isEmpty := true } := by
  rw [readAlternatives.eq_def]
  simp [ha]

/-- Names are put behind the right-hand side one after the other. -/
theorem readAlternatives_names (hnames : ∀ name ∈ names, isTokenName name = true)
    (ha : a.isEmpty = false) :
    readAlternatives lhs (names ++ rest) a =
      readAlternatives lhs rest { a with rhs := a.rhs ++ names } := by
  induction names generalizing a with
  | nil => rw [List.append_nil, List.nil_append]
  | cons name names ih =>
    obtain ⟨hname, hrest⟩ := List.forall_mem_cons.1 hnames
    have hnext := ih (a := { a with rhs := a.rhs ++ [name] }) hrest ha
    rw [List.cons_append, readAlternatives_name hname ha, hnext, List.append_assoc]
    rfl

/-- **The alternatives in front of a bar are read by themselves.** -/
theorem readAlternatives_append_bar (h : readAlternatives lhs names a = .ok productions) :
    readAlternatives lhs (names ++ "|" :: rest) a =
      (readAlternatives lhs rest Alternative.start).map (productions ++ ·) := by
  fun_induction readAlternatives lhs names a generalizing productions with
  | case1 a =>
    obtain rfl := Except.ok.inj h
    exact readAlternatives_bar
  | case2 names a ih =>
    obtain ⟨others, hothers, rfl⟩ := exists_of_map_eq_ok h
    rw [List.cons_append, readAlternatives_bar, ih hothers]
    cases readAlternatives lhs rest Alternative.start <;> rfl
  | case3 names a hrhs _ ih =>
    rw [List.cons_append, readAlternatives_empty (List.isEmpty_iff.1 hrhs), ih h]
  | case7 a token names hnone htoken _ _ ih =>
    rw [List.cons_append, List.cons_append,
      readAlternatives_prec htoken (Option.not_isSome_iff_eq_none.1 hnone), ih h]
  | case11 name names a _ _ _ _ hempty hname ih =>
    rw [List.cons_append, readAlternatives_name hname (Bool.eq_false_iff.2 hempty), ih h]
  | _ => cases h

/-- Names up to the end of a right-hand side complete an alternative. -/
theorem readAlternatives_last (hnames : ∀ name ∈ names, isTokenName name = true)
    (ha : a.isEmpty = false) :
    readAlternatives lhs names a = .ok [⟨lhs, a.rhs ++ names, a.precedence⟩] := by
  have hread : readAlternatives lhs (names ++ []) a = _ := readAlternatives_names hnames ha
  rw [List.append_nil] at hread
  rw [hread]
  rfl

/-- An alternative is read back. -/
theorem NamedProduction.Writes.read {p : NamedProduction} {names : List String}
    (h : p.Writes names) (hnames : ∀ name ∈ p.names, isTokenName name = true) :
    readAlternatives p.lhs names Alternative.start = .ok [p] := by
  obtain ⟨hrhs, hprecedence⟩ := List.forall_mem_append.1 hnames
  cases h with
  | names lhs rhs => exact readAlternatives_last hrhs rfl
  | precedence lhs before after token =>
    obtain ⟨hbefore, hafter⟩ := List.forall_mem_append.1 hrhs
    have htoken : isTokenName token = true := hprecedence token (List.mem_singleton_self token)
    calc readAlternatives lhs (before ++ "%prec" :: token :: after) Alternative.start
        = readAlternatives lhs ("%prec" :: token :: after) ⟨before, none, false⟩ :=
          readAlternatives_names hbefore rfl
      _ = readAlternatives lhs after ⟨before, some token, false⟩ := readAlternatives_prec htoken rfl
      _ = .ok [⟨lhs, before ++ after, some token⟩] := readAlternatives_last hafter rfl
  | empty lhs => rfl
  | emptyPrecedence lhs token =>
    have htoken : isTokenName token = true := hprecedence token (List.mem_singleton_self token)
    rw [readAlternatives_empty rfl, readAlternatives_prec htoken rfl]
    rfl
  | precedenceEmpty lhs token =>
    have htoken : isTokenName token = true := hprecedence token (List.mem_singleton_self token)
    rw [readAlternatives_prec htoken rfl]
    rfl

/-- **Alternatives are read back.** -/
theorem readAlternatives_of_writes {written : List (List String)} (hne : productions ≠ [])
    (hlhs : ∀ p ∈ productions, p.lhs = lhs)
    (hnames : ∀ p ∈ productions, ∀ name ∈ p.names, isTokenName name = true)
    (hwritten : List.Forall₂ NamedProduction.Writes productions written) :
    readAlternatives lhs (["|"].intercalate written) Alternative.start = .ok productions := by
  induction hwritten with
  | nil => exact absurd rfl hne
  | @cons p names productions written hp hrest ih =>
    obtain ⟨rfl, hlhs⟩ := List.forall_mem_cons.1 hlhs
    obtain ⟨hpnames, hnames⟩ := List.forall_mem_cons.1 hnames
    have hfirst := hp.read hpnames
    cases hrest with
    | nil =>
      rw [List.intercalate_singleton]
      exact hfirst
    | cons hq hrest =>
      have hothers := ih (List.cons_ne_nil _ _) hlhs hnames
      rw [List.intercalate_cons_cons, List.append_assoc, List.singleton_append,
        readAlternatives_append_bar hfirst, hothers]
      rfl

end Words

/-! ### Names that are declared

Literals are entered when they are used, in the order of their first use.  A table keeps the entries
that it has, so that entering them never moves or changes what has been declared. -/

namespace NameTable

variable {β : Type} {table : NameTable β} {name other : String} {value : β}

/-- A new name is the last entry. -/
theorem toList_push {h : table.indexOf? name = none} :
    (table.push name value h).toList = table.toList ++ [(name, value)] := by
  have hlength : table.names.toList.length = table.values.toList.length := by
    simpa [NameList.toList, NameList.size] using table.size_values.symm
  have hvalues : (table.push name value h).values.toList = table.values.toList ++ [value] :=
    Array.toList_push
  unfold toList
  rw [toList_names_push, hvalues, List.zip_append hlength]
  rfl

/-- A table has a new name besides those that it had. -/
theorem has_push {h : table.indexOf? name = none} :
    (table.push name value h).has other = (table.has other || other == name) := by
  have hindex : (table.push name value h).indexOf? other =
      if name = other then some table.names.size else table.indexOf? other :=
    NameList.indexOf?_push (h := h)
  show ((table.push name value h).indexOf? other).isSome = _
  rw [hindex]
  by_cases hname : name = other
  · simp [hname]
  · simp only [hname, if_false, beq_eq_false_iff_ne.2 (Ne.symm hname), Bool.or_false]
    rfl

/-- **Names that are declared are entered behind the others, each of them once.** -/
theorem toList_foldl_declare (table : NameTable β) (names : List String) (value : β) :
    (names.foldl (fun table name => table.declare name value) table).toList =
      table.toList ++
        ((names.filter fun name => !table.has name).eraseDups.map fun name => (name, value)) := by
  induction names generalizing table with
  | nil => simp
  | cons name names ih =>
    rw [List.foldl_cons, ih]
    unfold declare
    split
    · next hname =>
      have hhas : table.has name = true := by
        show (table.indexOf? name).isSome = true
        rw [hname]
        rfl
      rw [List.filter_cons_of_neg (by simp [hhas])]
    · next hname =>
      have hhas : table.has name = false := by
        show (table.indexOf? name).isSome = false
        rw [hname]
        rfl
      rw [List.filter_cons_of_pos (by simp [hhas]), List.eraseDups_cons, toList_push,
        List.append_assoc, List.filter_filter]
      simp only [has_push, Bool.not_or, Bool.and_comm]
      rfl

end NameTable

namespace GrammarDefinition

variable {d : GrammarDefinition} {lhs text : String}

/-- What is read of a right-hand side is added, and nothing else is changed but for its literals. -/
theorem addProductions_eq {productions : List NamedProduction} (hlhs : isIdentifier lhs = true)
    (hread : readAlternatives lhs (words text) Alternative.start = .ok productions) :
    d.addProductions lhs text = (.ok d.numProductions,
      { d with
        tokens := declareLiterals d.tokens (productions.flatMap NamedProduction.names)
        productions := d.productions ++ productions }) := by
  unfold addProductions
  rw [hlhs, hread]
  rfl

/-- **What is written is added.**  Alternatives that are written with bars between them, whatever
blanks stand between the words and wherever their directives stand, are the productions that are
added.  The literals that are not declared are entered behind the tokens in the order in which they
occur, and no token gets another identification or another precedence. -/
theorem addProductions_of_writes (d : GrammarDefinition) {lhs text : String}
    {productions : List NamedProduction} {written : List (List String)}
    (hlhs : isIdentifier lhs = true) (hne : productions ≠ [])
    (hall : ∀ p ∈ productions, p.lhs = lhs)
    (hnames : ∀ p ∈ productions, ∀ name ∈ p.names, isTokenName name = true)
    (hwritten : List.Forall₂ NamedProduction.Writes productions written)
    (hspaced : Spaced (["|"].intercalate written) text.toList) :
    ∃ e, d.addProductions lhs text = (.ok d.numProductions, e) ∧
      e.productions = d.productions ++ productions ∧
      e.tokens.toList = d.tokens.toList ++
        ((((productions.flatMap NamedProduction.names).filter isLiteral).filter
          fun name => !d.tokens.has name).eraseDups.map fun name => (name, none)) ∧
      e.numLevels = d.numLevels ∧
      (∀ name id, d.tokenId? name = some id → e.tokenId? name = some id) ∧
      ∀ name precedence, d.tokens.get? name = some precedence →
        e.tokens.get? name = some precedence := by
  have hread : readAlternatives lhs (words text) Alternative.start = .ok productions := by
    rw [words_of_spaced hspaced]
    exact readAlternatives_of_writes hne hall hnames hwritten
  have hadd := addProductions_eq (d := d) hlhs hread
  refine ⟨_, hadd, rfl, NameTable.toList_foldl_declare _ _ _, rfl, fun name id hid => ?_,
    fun name precedence => get?_foldl_declare _⟩
  exact tokenId?_of_prefix
    (names_prefix_foldl (fun table name => table.names_prefix_declare name none) _ _) hid

/-- A separator that has a precedence. -/
def separators : GrammarDefinition := (empty.declarePrecedence .left "','").2

/-- Three alternatives: one that has the precedence of another token, one without names, and one
with a literal that occurs a second time. -/
def lists : List NamedProduction :=
  [⟨"list", ["list", "','", "item"], some "';'"⟩, ⟨"list", [], none⟩,
    ⟨"list", ["'['", "list", "']'", "'['"], some "','"⟩]

/-- A text that writes them. -/
def listsText : String := " list ',' %prec ';' item\t|\n%empty | '[' %prec ',' list ']' '['"

/-- The directive for the precedence stands between the names, and one alternative is called empty.
The separator is declared already, and keeps its precedence. -/
theorem addProductions_of_writes_separators :
    ∃ e, separators.addProductions "list" listsText = (.ok 0, e) ∧
      e.productions = lists ∧
      e.tokens.toList =
        [("','", some ⟨1, .left⟩), ("';'", none), ("'['", none), ("']'", none)] := by
  have hlhs : isIdentifier "list" = true := by decide
  have hwritten : List.Forall₂ NamedProduction.Writes lists
      [["list", "','", "%prec", "';'", "item"], ["%empty"],
        ["'['", "%prec", "','", "list", "']'", "'['"]] :=
    .cons (.precedence "list" ["list", "','"] ["item"] "';'") (.cons (.empty "list")
      (.cons (.precedence "list" ["'['"] ["list", "']'", "'['"] "','") .nil))
  have hwords : words listsText = _ := rfl
  obtain ⟨e, hadd, hproductions, htokens, -⟩ :=
    addProductions_of_writes separators hlhs (by decide) (by decide) (by decide) hwritten
      (spaced_iff.2 hwords)
  exact ⟨e, hadd, hproductions, htokens.trans (by decide +kernel)⟩

end GrammarDefinition

end FrontEnd
