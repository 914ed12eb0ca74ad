import FrontEnd.Proofs.Grammar.Alternatives

/-!
# Operations that are refused

A definition checks all of its arguments before it takes any of them.  So an operation that fails
changes nothing, also when names or alternatives that could have been taken stand in front of the
one that is refused.

## Main Definitions

* `performAll` — some operations on a definition with their answers
* `RefusesWithoutTrace` — operations that change nothing when they fail
* `LexerDefinition.Operation`, `LexerDefinition.perform` — the operations on lexer definitions
* `GrammarDefinition.RefusesWhole` — one name or alternative that is refused is enough

## Main Statements

* `refusesWithoutTrace_of_unchanged` — what failing operations leave alone can be made without them
* `refused_without_trace` — grammar definitions and lexer definitions refuse without a trace
-/

namespace FrontEnd

section Runs

variable {δ χ ε α : Type}

/-- Some operations on a definition, one behind the other, with their answers, and the definition
behind them. -/
def performAll (apply : δ → χ → Except ε α × δ) (d : δ) : List χ → List (χ × Except ε α) × δ
  | [] => ([], d)
  | op :: ops =>
    let (answer, e) := apply d op
    let (answers, last) := performAll apply e ops
    ((op, answer) :: answers, last)

/-- Whether an operation has succeeded. -/
def succeeded : χ × Except ε α → Bool
  | (_, .ok _) => true
  | (_, .error _) => false

/-- Operations that change nothing when they fail. -/
structure RefusesWithoutTrace (apply : δ → χ → Except ε α × δ) : Prop where
  /-- The definition behind an operation that fails is the one in front of it. -/
  unchanged : ∀ d op fault e, apply d op = (.error fault, e) → e = d
  /-- The operations of a run that succeed make the same definition by themselves, with the same
  answers. -/
  replay : ∀ d ops,
    let (answers, last) := performAll apply d ops
    performAll apply d ((answers.filter succeeded).map Prod.fst) = (answers.filter succeeded, last)

/-- **What failing operations leave alone can be made without them.** -/
theorem refusesWithoutTrace_of_unchanged {apply : δ → χ → Except ε α × δ}
    (h : ∀ d op fault e, apply d op = (.error fault, e) → e = d) : RefusesWithoutTrace apply := by
  refine ⟨h, fun d ops => ?_⟩
  induction ops generalizing d with
  | nil => rfl
  | cons op ops ih =>
    rcases hop : apply d op with ⟨answer, e⟩
    have hrest := ih e
    simp only [performAll, hop]
    cases answer with
    | error fault =>
      obtain rfl := h d op fault e hop
      rw [List.filter_cons_of_neg (by simp [succeeded])]
      exact hrest
    | ok a =>
      rw [List.filter_cons_of_pos rfl, List.map_cons]
      simp only [performAll, hop, hrest]

/-- The operations of a run that succeed, on their own. -/
theorem RefusesWithoutTrace.performAll_succeeded {apply : δ → χ → Except ε α × δ}
    (h : RefusesWithoutTrace apply) {d last : δ} {ops : List χ} {answers : List (χ × Except ε α)}
    (hrun : performAll apply d ops = (answers, last)) :
    performAll apply d ((answers.filter succeeded).map Prod.fst) =
      (answers.filter succeeded, last) := by
  have hreplay := h.replay d ops
  rw [hrun] at hreplay
  exact hreplay

end Runs

/-! ### Lexers

An operation on a lexer looks at the names and the identification that it is given, and then enters
the rule, the lexer state or the pattern as a whole.  Patterns are not read before the lexer is
built. -/

/-- An operation on a lexer definition. -/
inductive LexerDefinition.Operation where
  | change (c : LexerDefinition.Change)
  /-- Gives a pattern a name. -/
  | pattern (name pattern : String)

/-- An operation on a lexer definition, with its answer. -/
def LexerDefinition.perform (d : LexerDefinition) :
    LexerDefinition.Operation → Except LexerFault (Option Nat) × LexerDefinition
  | .change c => d.apply c
  | .pattern name pattern => (d.namePattern name pattern).map (Except.map fun _ => none) id

/-- An operation that fails leaves a lexer definition as it is. -/
theorem LexerDefinition.perform_error (d : LexerDefinition) (op : LexerDefinition.Operation)
    (fault : LexerFault) (e : LexerDefinition) (h : d.perform op = (.error fault, e)) : e = d := by
  cases op with
  | change c => exact d.apply_error c e fault h
  | pattern name pattern =>
    replace h : (d.namePattern name pattern).map (Except.map fun _ => none) id =
      (.error fault, e) := h
    unfold namePattern at h
    split at h
    · cases h
      rfl
    · split at h <;> cases h
      rfl

/-! ### Grammars

An operation on a grammar reads all words of its text first.  A fault in one of them refuses the
whole operation, also when valid names stand in front of it. -/

namespace GrammarDefinition

/-- One name or alternative that is refused is enough, wherever it stands: the operation fails with
the fault of the first one, and changes nothing. -/
structure RefusesWhole (d : GrammarDefinition) : Prop where
  tokens : ∀ text valid name behind, words text = valid ++ name :: behind →
    (∀ v ∈ valid, isTokenName v = true) → isTokenName name = false →
      d.declareTokens text = (.error (.invalidName name), d)
  /-- A name that is no name of a token gets no precedence. -/
  invalid : ∀ associativity text valid name behind, words text = valid ++ name :: behind →
    (∀ v ∈ valid, isTokenName v = true ∧ d.hasPrecedence v = false) → isTokenName name = false →
      d.declarePrecedence associativity text = (.error (.invalidName name), d)
  /-- A token gets no second precedence. -/
  redeclared : ∀ associativity text valid name behind, words text = valid ++ name :: behind →
    (∀ v ∈ valid, isTokenName v = true ∧ d.hasPrecedence v = false) → isTokenName name = true →
      d.hasPrecedence name = true →
        d.declarePrecedence associativity text = (.error (.precedenceRedeclared name), d)
  /-- Alternatives that are read stand in front of one that is not. -/
  alternatives : ∀ lhs text valid refused productions fault, isIdentifier lhs = true →
    words text = valid ++ "|" :: refused →
    readAlternatives lhs valid Alternative.start = .ok productions →
      readAlternatives lhs refused Alternative.start = .error fault →
        d.addProductions lhs text = (.error fault, d)

variable {d : GrammarDefinition}

/-- Names that can be declared do not hide the fault of a later one. -/
theorem precedenceFault?_append {valid names : List String}
    (h : ∀ v ∈ valid, isTokenName v = true ∧ d.hasPrecedence v = false) :
    d.precedenceFault? (valid ++ names) = d.precedenceFault? names := by
  induction valid with
  | nil => rfl
  | cons v valid ih =>
    obtain ⟨⟨hname, hprecedence⟩, hvalid⟩ := List.forall_mem_cons.1 h
    rw [List.cons_append, precedenceFault?, hname, hprecedence, ih hvalid]
    rfl

/-- A declaration of precedence with one faulty name changes nothing, whatever stands in front of
that name. -/
theorem declarePrecedence_of_fault {associativity : Associativity} {text : String}
    {valid names : List String} {fault : GrammarFault} (hwords : words text = valid ++ names)
    (hvalid : ∀ v ∈ valid, isTokenName v = true ∧ d.hasPrecedence v = false)
    (hfault : d.precedenceFault? names = some fault) :
    d.declarePrecedence associativity text = (.error fault, d) := by
  unfold declarePrecedence
  dsimp only
  rw [hwords, precedenceFault?_append hvalid, hfault]

/-- A declaration is refused as a whole in any definition. -/
theorem refusesWhole (d : GrammarDefinition) : d.RefusesWhole where
  tokens text valid name behind hwords hvalid hname := by
    have hfind : (valid ++ name :: behind).find? (fun name => !isTokenName name) = some name := by
      rw [List.find?_append, List.find?_eq_none.2 (by simpa using hvalid),
        List.find?_cons_of_pos (by simpa using hname)]
      rfl
    unfold declareTokens
    dsimp only
    rw [hwords, hfind]
  invalid associativity text valid name behind hwords hvalid hname := by
    refine declarePrecedence_of_fault hwords hvalid ?_
    rw [precedenceFault?, hname]
    rfl
  redeclared associativity text valid name behind hwords hvalid hname hprecedence := by
    refine declarePrecedence_of_fault hwords hvalid ?_
    rw [precedenceFault?, hname, hprecedence]
    rfl
  alternatives lhs text valid refused productions fault hlhs hwords hvalid hrefused := by
    unfold addProductions
    rw [hlhs, hwords, readAlternatives_append_bar hvalid, hrefused]
    rfl

end GrammarDefinition

/-- **Operations that are refused leave no trace.**  An operation on a grammar definition or on a
lexer definition that fails leaves all of the definition as it was, and a run makes what its
operations that succeed make by themselves.  Names and alternatives that could have been taken are
not taken when one behind them is refused. -/
theorem refused_without_trace :
    RefusesWithoutTrace GrammarDefinition.apply ∧ RefusesWithoutTrace LexerDefinition.perform ∧
      ∀ d : GrammarDefinition, d.RefusesWhole :=
  ⟨refusesWithoutTrace_of_unchanged fun d c fault e => d.apply_error c e fault,
    refusesWithoutTrace_of_unchanged LexerDefinition.perform_error,
    GrammarDefinition.refusesWhole⟩

/-- Some operations on a grammar of lists.  The second one and the third one are refused, behind a
name and an alternative that could have been taken. -/
def refusedLists : List GrammarDefinition.Change :=
  [.tokens "ID", .precedence .left "'+' $", .productions "list" "list ',' ID | ID %prec",
    .precedence .right "'^' ID"]

/-- Neither the level nor the literals that stand in front of what is refused are there, and the
operations that succeed make the same definition by themselves.  A name of a token that stands in
front of one that is refused is not declared, either. -/
theorem refused_without_trace_of_lists :
    ∃ answers d,
      performAll GrammarDefinition.apply GrammarDefinition.empty refusedLists = (answers, d) ∧
      answers.map Prod.snd =
        [.ok none, .error (.invalidName "$"), .error (.rhs "list" .missingPrecToken), .ok none] ∧
      d.tokens.toList = [("ID", some ⟨1, .right⟩), ("'^'", some ⟨1, .right⟩)] ∧
      d.numLevels = 1 ∧ d.productions = [] ∧
      performAll GrammarDefinition.apply GrammarDefinition.empty
        ((answers.filter succeeded).map Prod.fst) = (answers.filter succeeded, d) ∧
      d.declareTokens "'*' $ NUM" = (.error (.invalidName "$"), d) := by
  have hanswers : (performAll GrammarDefinition.apply GrammarDefinition.empty
      refusedLists).1.map Prod.snd = [.ok none, .error (.invalidName "$"),
        .error (.rhs "list" .missingPrecToken), .ok none] := by decide +kernel
  have hlast : (performAll GrammarDefinition.apply GrammarDefinition.empty
      refusedLists).2.tokens.toList = [("ID", some ⟨1, .right⟩), ("'^'", some ⟨1, .right⟩)] ∧
      (performAll GrammarDefinition.apply GrammarDefinition.empty refusedLists).2.numLevels = 1 ∧
      (performAll GrammarDefinition.apply GrammarDefinition.empty refusedLists).2.productions =
        [] := by decide +kernel
  have hwords : words "'*' $ NUM" = ["'*'"] ++ "$" :: ["NUM"] := by decide +kernel
  have hvalid : ∀ v ∈ ["'*'"], isTokenName v = true := by decide +kernel
  have hrefused : isTokenName "$" = false := by decide +kernel
  obtain ⟨hgrammar, -, hwhole⟩ := refused_without_trace
  rcases hrun : performAll GrammarDefinition.apply GrammarDefinition.empty refusedLists with
    ⟨answers, d⟩
  rw [hrun] at hanswers hlast
  obtain ⟨htokens, hlevels, hproductions⟩ := hlast
  exact ⟨answers, d, rfl, hanswers, htokens, hlevels, hproductions,
    hgrammar.performAll_succeeded hrun, (hwhole d).tokens _ _ _ _ hwords hvalid hrefused⟩

end FrontEnd
