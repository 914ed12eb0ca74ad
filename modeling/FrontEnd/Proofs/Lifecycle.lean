import FrontEnd.Sealed
import Mathlib.Data.List.Induction

/-!
# The life cycle of lexers and parsers

A machine is open for changes until a build succeeds, and sealed from then on.  What was built is
what the changes that have succeeded define; operations that have failed leave no trace in it.

## Main Definitions

* `Stage.Operation`, `Stage.run` — what is asked of a machine, and the history of a run
* `Stage.Makes` — the definition that some changes make, none of which fails
* `Stage.Explains` — a stage that a history accounts for
* `Stage.Lifecycle` — the life cycle of a machine
* `LexerDefinition.Change`, `LexerStage.perform` — the operations of lexers
* `GrammarDefinition.Change`, `ParserStage.perform` — the operations of parsers

## Main Statements

* `Stage.lifecycle_perform` — a machine whose failing changes change nothing has this life cycle
* `Stage.lifecycle_of_lexers_and_parsers` — lexers and parsers have it

## Design Notes

Flags, handles of states, identifications of tokens and tables are read from the stage and do not
change it.  So an operation that leaves the stage as it was leaves them all.
-/

namespace FrontEnd

namespace Stage

variable {δ β ε α χ υ ω : Type}

/-- An operation of a machine. -/
inductive Operation (χ : Type) where
  /-- A change of the definition. -/
  | change (c : χ)
  /-- A build of what is defined. -/
  | build

/-- The answer to an operation: the number that a rule, a state or a production gets, or nothing
where there is none to give. -/
abbrev Answer := Except SealedFault (Option Nat)

/-- The operations of a run with their answers. -/
abbrev History (χ : Type) := List (Operation χ × Answer)

/-- What a machine does with some operations, one behind the other: their history, and the stage
behind them. -/
def run (perform : Stage δ β → Operation χ → Answer × Stage δ β) (stage : Stage δ β) :
    List (Operation χ) → History χ × Stage δ β
  | [] => ([], stage)
  | op :: ops =>
    let (answer, next) := perform stage op
    let (history, last) := run perform next ops
    ((op, answer) :: history, last)

/-- Whether an entry of a history is a build that has succeeded. -/
def isBuilt : Operation χ × Answer → Bool
  | (.build, .ok _) => true
  | _ => false

/-- The change of an entry of a history, if it has succeeded. -/
def change? : Operation χ × Answer → Option χ
  | (.change c, .ok _) => some c
  | _ => none

/-- The definition that some changes make of another one, where all of them succeed. -/
inductive Makes (apply : δ → χ → Except ε α × δ) (start : δ) : List χ → δ → Prop
  | start : Makes apply start [] start
  | change {changes : List χ} {d e : δ} {c : χ} {a : α} :
    Makes apply start changes d → apply d c = (.ok a, e) → Makes apply start (changes ++ [c]) e

/-- The stage that a history leads to. -/
inductive Explains (apply : δ → χ → Except ε α × δ) (build : δ → Except ε β) (start : δ) :
    History χ → Stage δ β → Prop
  /-- No build has succeeded: the definition is what the changes that have succeeded make. -/
  | opened {history : History χ} {d : δ} :
    (∀ entry ∈ history, isBuilt entry = false) →
      Makes apply start (history.filterMap change?) d →
      Explains apply build start history (.opened d)
  /-- One build has succeeded, and built the definition that the changes before it have made.  All
  that was asked behind it has been refused. -/
  | built {before after : History χ} {d : δ} {b : β} {answer : Option Nat} :
    (∀ entry ∈ before, isBuilt entry = false) →
      Makes apply start (before.filterMap change?) d → build d = .ok b →
      (∀ entry ∈ after, entry.2 = .error .sealed) →
      Explains apply build start (before ++ (.build, .ok answer) :: after) (.built b)

/-- The life cycle of a machine that starts with a definition that is open. -/
structure Lifecycle (perform : Stage δ β → Operation χ → Answer × Stage δ β)
    (use : Stage δ β → υ → Except SealedFault ω) (fault : ε → SealedFault)
    (apply : δ → χ → Except ε (Option Nat) × δ) (build : δ → Except ε β) (start : δ) : Prop where
  /-- Each run leads to the stage that its history explains. -/
  explains : ∀ ops history stage, run perform (.opened start) ops = (history, stage) →
    Explains apply build start history stage
  /-- At most one build of a run succeeds. -/
  countP_le_one : ∀ ops history stage, run perform (.opened start) ops = (history, stage) →
    history.countP isBuilt ≤ 1
  /-- What is open is changed as its definition is, with the same answer. -/
  changes : ∀ d c,
    perform (.opened d) (.change c) = ((apply d c).1.mapError fault, .opened (apply d c).2)
  /-- What is open is built when its definition can be built. -/
  builds : ∀ d b, build d = .ok b → perform (.opened d) .build = (.ok none, .built b)
  /-- Otherwise it stays open, and the answer is why it can not be built. -/
  refusesBuild : ∀ d e, build d = .error e →
    perform (.opened d) .build = (.error (fault e), .opened d)
  /-- What is open has not been built, and is of no use. -/
  notSealed : ∀ d : δ, (opened d : Stage δ β).thing = .error .notSealed ∧
    ∀ u, use (.opened d) u = .error .notSealed
  /-- An operation that fails changes nothing. -/
  unchanged : ∀ stage op fault next, perform stage op = (.error fault, next) → next = stage
  /-- What has been built is sealed. -/
  sealed : ∀ b op, perform (.built b) op = (.error .sealed, .built b)

/-- Changing a definition, or building it. -/
def perform (fault : ε → SealedFault) (apply : δ → χ → Except ε (Option Nat) × δ)
    (build : δ → Except ε β) (stage : Stage δ β) : Operation χ → Answer × Stage δ β
  | .change c => stage.change fault fun d => apply d c
  | .build => (stage.build fault build).map (Except.map fun _ => none) id

/-! ### Runs

The machine is the same for lexers and parsers: an open definition is changed until a build
succeeds, and what has been built is sealed.  The lemmas are about any operations, any definition
and any artifact, and say all that can happen. -/

/-- Operations can be performed in two parts. -/
theorem run_append (perform : Stage δ β → Operation χ → Answer × Stage δ β) (stage : Stage δ β)
    (ops others : List (Operation χ)) :
    run perform stage (ops ++ others) =
      let (history, next) := run perform stage ops
      let (rest, last) := run perform next others
      (history ++ rest, last) := by
  induction ops generalizing stage with
  | nil => rfl
  | cons op ops ih =>
    simp only [List.cons_append, run, ih]

/-- A history that explains a stage has one successful build at most. -/
theorem Explains.countP_le_one {apply : δ → χ → Except ε α × δ} {build : δ → Except ε β} {start : δ}
    {history : History χ} {stage : Stage δ β} (h : Explains apply build start history stage) :
    history.countP isBuilt ≤ 1 := by
  cases h with
  | opened hopen _ =>
    rw [List.countP_eq_zero.2 fun entry hentry => by simp [hopen entry hentry]]
    exact Nat.zero_le 1
  | @built before after d b answer hopen _ _ hafter =>
    have hbefore : before.countP isBuilt = 0 :=
      List.countP_eq_zero.2 fun entry hentry => by simp [hopen entry hentry]
    have hrest : after.countP isBuilt = 0 := by
      refine List.countP_eq_zero.2 fun ⟨op, answer⟩ hentry => ?_
      obtain rfl : answer = .error .sealed := hafter _ hentry
      cases op <;> simp [isBuilt]
    rw [List.countP_append, List.countP_cons, hbefore, hrest]
    simp [isBuilt]

/-- One more entry that builds nothing. -/
theorem Explains.opened_concat {apply : δ → χ → Except ε α × δ} {build : δ → Except ε β}
    {start d : δ} {history : History χ} {entry : Operation χ × Answer}
    (hopen : ∀ entry ∈ history, isBuilt entry = false) (hentry : isBuilt entry = false)
    (hmakes : Makes apply start (history.filterMap change? ++ (change? entry).toList) d) :
    Explains apply build start (history ++ [entry]) (.opened d) := by
  refine .opened (List.forall_mem_append.2 ⟨hopen, by simpa using hentry⟩) ?_
  have hlast : [entry].filterMap change? = (change? entry).toList := by
    cases hchange : change? entry <;> simp [hchange]
  rwa [List.filterMap_append, hlast]

section Lifecycle

variable {fault : ε → SealedFault} {apply : δ → χ → Except ε (Option Nat) × δ}
  {build : δ → Except ε β} {start : δ}

/-- A change of an open definition, in terms of what it does to the definition. -/
theorem perform_change_opened (d : δ) (c : χ) :
    perform fault apply build (.opened d) (.change c) =
      ((apply d c).1.mapError fault, .opened (apply d c).2) := by
  show Stage.change (.opened d) fault (fun d => apply d c) = _
  unfold Stage.change
  dsimp only
  rcases apply d c with ⟨_ | _, _⟩ <;> rfl

/-- A build of an open definition. -/
theorem perform_build_opened {d : δ} :
    perform fault apply build (.opened d) (.build : Operation χ) =
      match build d with
      | .ok b => (.ok none, .built b)
      | .error e => (.error (fault e), .opened d) := by
  show (Stage.build (.opened d) fault build).map (Except.map fun _ => none) id = _
  unfold Stage.build
  dsimp only
  cases build d <;> rfl

/-- What has been built refuses every operation and stays as it is. -/
theorem perform_built (b : β) (op : Operation χ) :
    perform fault apply build (.built b) op = (.error .sealed, .built b) := by
  cases op <;> rfl

variable (hatomic : ∀ d c e error, apply d c = (.error error, e) → e = d)

include hatomic

/-- An operation that is refused changes nothing, whatever stage the machine is in. -/
theorem perform_unchanged {stage next : Stage δ β} {op : Operation χ} {refusal : SealedFault}
    (h : perform fault apply build stage op = (.error refusal, next)) : next = stage := by
  cases stage with
  | built b =>
    rw [perform_built] at h
    exact (Prod.mk.inj h).2.symm
  | opened d =>
    cases op with
    | change c =>
      rw [perform_change_opened] at h
      rcases happly : apply d c with ⟨result, e⟩
      rw [happly] at h
      cases result with
      | error error =>
        rw [hatomic d c e error happly] at h
        exact (Prod.mk.inj h).2.symm
      | ok a => cases h
    | build =>
      rw [perform_build_opened] at h
      split at h
      · cases h
      · exact (Prod.mk.inj h).2.symm

/-- **One operation**: the history that explains a stage explains, with this operation, the stage
behind it. -/
theorem Explains.perform {history : History χ} {stage : Stage δ β}
    (h : Explains apply build start history stage) (op : Operation χ) :
    Explains apply build start (history ++ [(op, (Stage.perform fault apply build stage op).1)])
      (Stage.perform fault apply build stage op).2 := by
  cases h with
  | opened hopen hmakes =>
    next d =>
    -- a change may succeed or fail, and so may a build
    cases op with
    | change c =>
      rw [perform_change_opened]
      rcases happly : apply d c with ⟨result, e⟩
      cases result with
      | ok a => exact .opened_concat hopen rfl (hmakes.change happly)
      | error error =>
        obtain rfl := hatomic d c e error happly
        exact .opened_concat hopen rfl ((List.append_nil _).symm ▸ hmakes)
    | build =>
      rw [perform_build_opened]
      split
      · next b hbuild => exact .built hopen hmakes hbuild (by simp)
      · exact .opened_concat hopen rfl ((List.append_nil _).symm ▸ hmakes)
  | built hopen hmakes hbuild hafter =>
    rw [perform_built, List.append_assoc, List.cons_append]
    exact .built hopen hmakes hbuild (List.forall_mem_append.2 ⟨hafter, by simp⟩)

/-- **A machine whose failing changes change nothing has this life cycle.** -/
theorem lifecycle_perform {use : Stage δ β → υ → Except SealedFault ω}
    (huse : ∀ d u, use (.opened d) u = .error .notSealed) :
    Lifecycle (perform fault apply build) use fault apply build start := by
  have hexplains : ∀ ops history stage,
      run (perform fault apply build) (.opened start) ops = (history, stage) →
        Explains apply build start history stage := by
    intro ops
    induction ops using List.reverseRecOn with
    | nil =>
      intro history stage hrun
      cases hrun
      exact .opened (by simp) .start
    | append_singleton ops op ih =>
      intro history stage hrun
      rw [run_append] at hrun
      cases hrun
      exact (ih _ _ rfl).perform hatomic op
  exact {
    explains := hexplains
    countP_le_one := fun ops history stage hrun => (hexplains ops history stage hrun).countP_le_one
    changes := perform_change_opened
    builds := fun d b hbuild => by rw [perform_build_opened, hbuild]
    refusesBuild := fun d e hbuild => by rw [perform_build_opened, hbuild]
    notSealed := fun d => ⟨rfl, huse d⟩
    unchanged := fun stage op refusal next h => perform_unchanged hatomic h
    sealed := perform_built }

end Lifecycle

/-- A change whose answer is read in another way. -/
theorem change_map (stage : Stage δ β) (fault : ε → SealedFault) (f : δ → Except ε α × δ)
    (read : α → Option Nat) :
    (stage.change fault f).map (Except.map read) id =
      stage.change fault fun d => (f d).map (Except.map read) id := by
  cases stage with
  | built b => rfl
  | opened d =>
    show Prod.map _ _ (Stage.change (.opened d) fault f) = _
    unfold Stage.change
    dsimp only
    rcases f d with ⟨_ | _, _⟩ <;> rfl

end Stage

/-! ### Lexers

A lexer is such a machine over its definition. -/

/-- A change of a lexer definition. -/
inductive LexerDefinition.Change where
  | rule (rule : Rule)
  /-- A rule with the names of its lexer states and its destination as they are written. -/
  | ruleIn (states destination : String) (rule : Rule)
  | state (name : String)
  | flags (bits : Nat)

/-- A change of a lexer definition, with its answer. -/
def LexerDefinition.apply (d : LexerDefinition) :
    LexerDefinition.Change → Except LexerFault (Option Nat) × LexerDefinition
  | .rule rule => (d.addRule rule).map (Except.map some) id
  | .ruleIn states destination rule =>
    (d.addRule { rule with
      scope := RuleScope.parse states
      destination := Destination.parse destination }).map (Except.map some) id
  | .state name => (d.addState name).map (Except.map some) id
  | .flags bits => (.ok none, d.setFlags (Flags.ofBits bits))

/-- An operation of a lexer that is built step by step. -/
def LexerStage.perform (stage : LexerStage) :
    Stage.Operation LexerDefinition.Change → Stage.Answer × LexerStage
  | .change (.rule rule) => (stage.addRule rule).map (Except.map some) id
  | .change (.ruleIn states destination rule) =>
    (stage.addRuleIn states destination rule).map (Except.map some) id
  | .change (.state name) => (stage.addState name).map (Except.map some) id
  | .change (.flags bits) => (stage.setFlags bits).map (Except.map fun _ => none) id
  | .build => stage.buildLexer.map (Except.map fun _ => none) id

/-- The operations of a lexer are those of the machine. -/
theorem LexerStage.perform_eq :
    LexerStage.perform =
      Stage.perform .lexer LexerDefinition.apply LexerDefinition.build := by
  funext stage op
  cases op with
  | build => rfl
  | change c =>
    cases c with
    | rule rule => exact Stage.change_map stage _ _ _
    | ruleIn states destination rule => exact Stage.change_map stage _ _ _
    | state name => exact Stage.change_map stage _ _ _
    | flags bits =>
      exact Stage.change_map stage .lexer (fun d => (.ok (), d.setFlags (Flags.ofBits bits)))
        fun _ => none

/-- A change that fails leaves a lexer definition as it is. -/
theorem LexerDefinition.apply_error (d : LexerDefinition) (c : LexerDefinition.Change)
    (e : LexerDefinition) (fault : LexerFault) (h : d.apply c = (.error fault, e)) : e = d := by
  have hrule : ∀ rule, (d.addRule rule).map (Except.map some) id = (.error fault, e) → e = d := by
    intro rule h
    unfold addRule at h
    split at h <;> cases h
    rfl
  cases c with
  | rule rule => exact hrule rule h
  | ruleIn states destination rule => exact hrule _ h
  | state name =>
    replace h : (d.addState name).map (Except.map some) id = (.error fault, e) := h
    unfold addState at h
    split at h
    · cases h
      rfl
    · split at h <;> cases h
      rfl
  | flags bits => cases h

/-! ### Parsers

A parser is such a machine over the definition of its grammar. -/

/-- A change of a grammar definition. -/
inductive GrammarDefinition.Change where
  | tokens (names : String)
  | precedence (associativity : Associativity) (names : String)
  | productions (lhs rhs : String)

/-- A change of a grammar definition, with its answer. -/
def GrammarDefinition.apply (d : GrammarDefinition) :
    GrammarDefinition.Change → Except GrammarFault (Option Nat) × GrammarDefinition
  | .tokens names => (d.declareTokens names).map (Except.map fun _ => none) id
  | .precedence associativity names =>
    (d.declarePrecedence associativity names).map (Except.map fun _ => none) id
  | .productions lhs rhs => (d.addProductions lhs rhs).map (Except.map some) id

/-- An operation of a parser that is built step by step. -/
def ParserStage.perform (stage : ParserStage) :
    Stage.Operation GrammarDefinition.Change → Stage.Answer × ParserStage
  | .change (.tokens names) => (stage.declareTokens names).map (Except.map fun _ => none) id
  | .change (.precedence associativity names) =>
    (stage.declarePrecedence associativity names).map (Except.map fun _ => none) id
  | .change (.productions lhs rhs) => (stage.addProductions lhs rhs).map (Except.map some) id
  | .build => stage.buildParser.map (Except.map fun _ => none) id

/-- The operations of a parser are those of the machine. -/
theorem ParserStage.perform_eq :
    ParserStage.perform =
      Stage.perform .grammar GrammarDefinition.apply GrammarDefinition.buildParser := by
  funext stage op
  cases op with
  | build => rfl
  | change c => cases c <;> exact Stage.change_map stage _ _ _

/-- A change that fails leaves a grammar definition as it is. -/
theorem GrammarDefinition.apply_error (d : GrammarDefinition) (c : GrammarDefinition.Change)
    (e : GrammarDefinition) (fault : GrammarFault) (h : d.apply c = (.error fault, e)) : e = d := by
  cases c with
  | tokens names =>
    replace h : (d.declareTokens names).map (Except.map fun _ => none) id = (.error fault, e) := h
    unfold declareTokens at h
    dsimp only at h
    split at h <;> cases h
    rfl
  | precedence associativity names =>
    replace h : (d.declarePrecedence associativity names).map (Except.map fun _ => none) id =
      (.error fault, e) := h
    unfold declarePrecedence at h
    dsimp only at h
    split at h
    · cases h
      rfl
    · split at h <;> cases h
  | productions lhs rhs =>
    replace h : (d.addProductions lhs rhs).map (Except.map some) id = (.error fault, e) := h
    unfold addProductions at h
    split at h
    · cases h
      rfl
    · split at h <;> cases h
      rfl

/-- **Lexers and parsers have the life cycle of machines that are built once.** -/
theorem Stage.lifecycle_of_lexers_and_parsers :
    Lifecycle LexerStage.perform LexerStage.consume .lexer LexerDefinition.apply
        LexerDefinition.build LexerDefinition.empty ∧
      Lifecycle ParserStage.perform
        (fun (stage : ParserStage) (lexer, input) => stage.parse lexer input) .grammar
        GrammarDefinition.apply GrammarDefinition.buildParser GrammarDefinition.empty := by
  constructor
  · rw [LexerStage.perform_eq]
    exact lifecycle_perform LexerDefinition.apply_error fun _ _ => rfl
  · rw [ParserStage.perform_eq]
    exact lifecycle_perform GrammarDefinition.apply_error fun _ _ => rfl

/-- The operations of a parser for lists, with a build that comes too early and one too many. -/
def listOperations : List (Stage.Operation GrammarDefinition.Change) :=
  [.build, .change (.productions "list" "list 'x' | %empty"), .build, .change (.tokens "y"), .build]

/-- A build without productions fails and leaves the grammar open.  Behind the next one it is
sealed, and what was built is what the one change in front of it has made. -/
theorem Stage.lifecycle_of_lists :
    ∃ history p, run ParserStage.perform ParserStage.new listOperations = (history, .built p) ∧
      history.map Prod.snd = [.error (.grammar .noProductions), .ok (some 0), .ok none,
        .error .sealed, .error .sealed] ∧
      history.countP isBuilt = 1 ∧
      Explains GrammarDefinition.apply GrammarDefinition.buildParser GrammarDefinition.empty history
        (.built p) := by
  have hsealed : (run ParserStage.perform ParserStage.new listOperations).2.isSealed = true := by
    decide +kernel
  have hhistory : (run ParserStage.perform ParserStage.new listOperations).1.map Prod.snd =
        [.error (.grammar .noProductions), .ok (some 0), .ok none, .error .sealed,
          .error .sealed] ∧
      (run ParserStage.perform ParserStage.new listOperations).1.countP isBuilt = 1 := by
    decide +kernel
  rcases hrun : run ParserStage.perform ParserStage.new listOperations with ⟨history, _ | p⟩
  · rw [hrun] at hsealed
    cases hsealed
  · rw [hrun] at hhistory
    exact ⟨history, p, rfl, hhistory.1, hhistory.2,
      lifecycle_of_lexers_and_parsers.2.explains _ _ _ hrun⟩

end FrontEnd
