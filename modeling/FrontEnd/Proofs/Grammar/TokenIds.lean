import FrontEnd.Proofs.Grammar.Operators
import FrontEnd.Proofs.Lifecycle
import FrontEnd.Proofs.Parser.Soundness

/-!
# Identifications of tokens

A token keeps the identification that it gets at its declaration: whatever is done to the grammar
afterwards, and in the parser that is built.  So a lexer can be built while the grammar is open.

## Main Definitions

* `GrammarDefinition.applyAll` — a definition behind some changes, whether they fail or not
* `SymbolTable.Numbers` — a table of symbols with the identifications of a definition
* `ParserStage.behind` — a parser behind some operations
* `GrammarDefinition.definedBy` — the definition that is open behind them, or that was built
* `ParserStage.IsStageOf` — what a definition is as long as it is open, and when it is built

## Main Statements

* `GrammarDefinition.names_prefix_apply` — a change enters new names behind the others
* `GrammarDefinition.numbers_of_resolve` — the symbols of a grammar have the identifications of the
  definition
* `ParserStage.isStageOf_behind` — a parser is always a stage of what is defined
* `GrammarDefinition.tokenIds_stable` — the identifications of tokens do not change

## Design Notes

The names of a definition are a prefix of those of each later one.  An identification is the place
of a name, so it is kept along the prefix, and the table of the symbols only puts the end of the
input in front.
-/

namespace FrontEnd

/-- The definition behind some changes, whether they fail or not. -/
def GrammarDefinition.applyAll (d : GrammarDefinition) (changes : List GrammarDefinition.Change) :
    GrammarDefinition :=
  changes.foldl (fun d c => (d.apply c).2) d

/-- The parser behind some operations, whether they fail or not. -/
def ParserStage.behind (operations : List (Stage.Operation GrammarDefinition.Change)) :
    ParserStage :=
  (Stage.run ParserStage.perform ParserStage.new operations).2

/-- The definition that is open behind some operations, or that has been built by them: behind a
build that succeeds there are no changes any more. -/
def GrammarDefinition.definedBy (d : GrammarDefinition) :
    List (Stage.Operation GrammarDefinition.Change) → GrammarDefinition
  | [] => d
  | .change c :: operations => (d.apply c).2.definedBy operations
  | .build :: operations =>
    match d.buildParser with
    | .ok _ => d
    | .error _ => d.definedBy operations

/-- A definition as a parser: it is open, or it has been built. -/
inductive ParserStage.IsStageOf (d : GrammarDefinition) : ParserStage → Prop
  | opened : IsStageOf d (.opened d)
  | built {p : Parser} : d.buildParser = .ok p → IsStageOf d (.built p)

/-- A table of symbols whose terminals are the end of the input, with the identification 0, and the
tokens of a definition with the identifications that they have there. -/
structure SymbolTable.Numbers (table : SymbolTable) (d : GrammarDefinition) : Prop where
  findTerminal?_end : table.findTerminal? endName = some 0
  terminalName?_end : table.terminalName? 0 = some endName
  findTerminal? : ∀ name id, d.tokenId? name = some id → table.findTerminal? name = some id
  terminalName? : ∀ name id, d.tokenId? name = some id → table.terminalName? id = some name
  numTerminals : table.numTerminals = d.tokens.size + 1

namespace GrammarDefinition

variable {d : GrammarDefinition} {name : String} {id : TokenId}

/-! ### The order of names

A change appends names behind the others, or it fails and changes nothing.  Everything about
identifications follows from this prefix, and not from what a change does in particular. -/

/-- A change leads from one definition that can be built to another one. -/
theorem Reachable.apply (h : d.Reachable) (c : Change) : (d.apply c).2.Reachable := by
  cases c with
  | tokens names => exact .tokens names h
  | precedence associativity names => exact .precedence associativity names h
  | productions lhs rhs => exact .productions lhs rhs h

/-- Any changes lead from one definition that can be built to another one. -/
theorem Reachable.applyAll (h : d.Reachable) (changes : List Change) :
    (d.applyAll changes).Reachable :=
  List.foldlRecOn changes _ h fun _ h c _ => h.apply c

/-- What is defined by operations can be built by changes. -/
theorem Reachable.definedBy (h : d.Reachable) (operations : List (Stage.Operation Change)) :
    (d.definedBy operations).Reachable := by
  induction operations generalizing d with
  | nil => exact h
  | cons op operations ih =>
    cases op with
    | change c => exact ih (h.apply c)
    | build =>
      rw [GrammarDefinition.definedBy]
      split
      · exact h
      · exact ih h

/-- New names are entered behind the others. -/
theorem names_prefix_foldl {put : NameTable (Option Precedence) → String →
      NameTable (Option Precedence)}
    (hput : ∀ table name, table.names.toList <+: (put table name).names.toList)
    (table : NameTable (Option Precedence)) (names : List String) :
    table.names.toList <+: (names.foldl put table).names.toList :=
  List.foldlRecOn names put (motive := fun last => table.names.toList <+: last.names.toList)
    (List.prefix_refl _) fun last h name _ => h.trans (hput last name)

/-- **One change**: names are entered behind the others only. -/
theorem names_prefix_apply (d : GrammarDefinition) (c : Change) :
    d.tokens.names.toList <+: (d.apply c).2.tokens.names.toList := by
  have hdeclare := fun (table : NameTable (Option Precedence)) name =>
    table.names_prefix_declare name none
  cases c with
  | tokens names =>
    show _ <+: (d.declareTokens names).2.tokens.names.toList
    unfold declareTokens
    dsimp only
    split
    · exact List.prefix_refl _
    · exact names_prefix_foldl hdeclare _ _
  | precedence associativity names =>
    show _ <+: (d.declarePrecedence associativity names).2.tokens.names.toList
    unfold declarePrecedence
    dsimp only
    split
    · exact List.prefix_refl _
    · split
      · exact List.prefix_refl _
      · exact names_prefix_foldl (fun table name => table.names_prefix_put name _) _ _
  | productions lhs rhs =>
    show _ <+: (d.addProductions lhs rhs).2.tokens.names.toList
    unfold addProductions
    split
    · exact List.prefix_refl _
    · split
      · exact List.prefix_refl _
      · exact names_prefix_foldl hdeclare _ _

/-- A token keeps its identification when names are entered behind its own. -/
theorem tokenId?_of_prefix {e : GrammarDefinition}
    (h : d.tokens.names.toList <+: e.tokens.names.toList) (hid : d.tokenId? name = some id) :
    e.tokenId? name = some id := by
  obtain ⟨i, hi, rfl⟩ := Option.map_eq_some_iff.1 hid
  exact Option.map_eq_some_iff.2 ⟨i, NameList.indexOf?_of_prefix h hi, rfl⟩

/-- **Some changes**: a token keeps its identification. -/
theorem tokenId?_applyAll (hid : d.tokenId? name = some id) (changes : List Change) :
    (d.applyAll changes).tokenId? name = some id :=
  List.foldlRecOn changes _ (motive := fun e : GrammarDefinition => e.tokenId? name = some id) hid
    fun e he c _ => tokenId?_of_prefix (e.names_prefix_apply c) he

/-- The identifications in use are those from 1 to the number of tokens. -/
theorem exists_tokenId?_iff :
    (∃ name, d.tokenId? name = some id) ↔ 1 ≤ id ∧ id ≤ d.tokens.size := by
  constructor
  · rintro ⟨name, h⟩
    obtain ⟨i, hi, rfl⟩ := Option.map_eq_some_iff.1 h
    have hlt : i < d.tokens.size := NameList.lt_size_of_indexOf? hi
    show 1 ≤ (i : Int) + 1 ∧ (i : Int) + 1 ≤ d.tokens.size
    omega
  · rintro ⟨hpos, hle⟩
    obtain ⟨i, rfl⟩ : ∃ i : Nat, id = (i : Int) + 1 :=
      ⟨(id - 1).toNat, by rw [Int.toNat_of_nonneg (Int.sub_nonneg.2 hpos), Int.sub_add_cancel]⟩
    have hlt : i < d.tokens.names.entries.size := by
      have hcast : (i : Int) + 1 ≤ d.tokens.names.entries.size := hle
      omega
    exact ⟨d.tokens.names.entries[i], Option.map_eq_some_iff.2
      ⟨i, NameList.indexOf?_eq_some_iff.2 (Array.getElem?_eq_getElem hlt), rfl⟩⟩

/-! ### Tables of symbols

The table of a grammar is the names of the definition behind the end of the input, in their order.
The identification is the place of a name in the definition plus one, and so it is the number of the
terminal in the table. -/

/-- The terminals of a grammar are those of the tokens of its definition. -/
theorem terminals_of_resolve {g : Grammar} (h : d.resolve = .ok g) :
    g.symbols.terminals = d.tokenSymbols.terminals := by
  unfold resolve at h
  split at h
  · cases h
  split at h
  · cases h
  next table htable =>
  split at h
  · cases h
  obtain ⟨-, hsymbols, -⟩ := Grammar.eq_of_ofProductions h
  rw [hsymbols, terminals_addLhsSymbols htable]

/-- **The symbols of a grammar have the identifications of the definition.** -/
theorem numbers_of_resolve {g : Grammar} (hd : d.Reachable) (h : d.resolve = .ok g) :
    g.symbols.Numbers d := by
  have hterminals := terminals_of_resolve h
  have hnames : g.symbols.terminals.names.toList = endName :: d.tokens.names.toList := by
    rw [hterminals, (holds_tokenSymbols hd).names]
  have hend : g.symbols.findTerminal? endName = some 0 := by
    refine Option.map_eq_some_iff.2 ⟨0, NameList.indexOf?_eq_some_iff.2 ?_, rfl⟩
    rw [NameList.get?_eq, hnames, List.getElem?_cons_zero]
  have hfind : ∀ name id, d.tokenId? name = some id → g.symbols.findTerminal? name = some id := by
    intro name id hid
    obtain ⟨i, hi, -⟩ := Option.map_eq_some_iff.1 hid
    have hmem : name ∈ d.tokens.names.toList := by
      rw [← Decidable.not_not (p := name ∈ d.tokens.names.toList), ← NameList.indexOf?_eq_none_iff]
      exact fun hnone => by cases hnone.symm.trans hi
    rw [findTerminal?_eq_tokenId? hd hterminals (hd.isTokenName_tokens name hmem), hid]
  exact {
    findTerminal?_end := hend
    terminalName?_end := terminalName?_of_findTerminal? hend
    findTerminal? := hfind
    terminalName? := fun name id hid => terminalName?_of_findTerminal? (hfind name id hid)
    numTerminals := by
      have hlength := congrArg List.length hnames
      rw [List.length_cons] at hlength
      exact hlength }

/-- A parser that has been built has the identifications of its definition. -/
theorem numbers_of_buildParser {p : Parser} (hd : d.Reachable) (h : d.buildParser = .ok p) :
    p.symbols.Numbers d := by
  obtain ⟨g, hresolve, rfl⟩ := exists_of_buildParser h
  exact numbers_of_resolve hd hresolve

end GrammarDefinition

/-! ### Parsers that are built step by step

The host asks for the identification of a name at any time.  An open definition answers from its
tokens and a parser from its table of symbols; that both answer the same is
`SymbolTable.Numbers`. -/

namespace ParserStage

variable {stage : ParserStage} {name : String} {id : TokenId}

/-- A parser whose definition the operations have built, or that has been built. -/
def IsReachable : ParserStage → Prop
  | .opened d => d.Reachable
  | .built _ => True

/-- An open definition answers with the identification of the name. -/
theorem tokenId_opened_iff {d : GrammarDefinition} :
    tokenId (.opened d) name = .ok id ↔ d.tokenId? name = some id := by
  unfold tokenId
  dsimp only
  cases d.tokenId? name <;> simp

/-- A parser answers the identifications of the definition that it was built from. -/
theorem tokenId_built {d : GrammarDefinition} {p : Parser} (hd : d.Reachable)
    (hbuild : d.buildParser = .ok p) (hid : d.tokenId? name = some id) :
    tokenId (.built p) name = .ok id := by
  have hnumbers := GrammarDefinition.numbers_of_buildParser hd hbuild
  unfold tokenId Parser.tokenId
  dsimp only
  rw [hnumbers.findTerminal? name id hid]

/-- **Each token of a definition has an answer**, as long as the definition is open and when it is
built. -/
theorem IsStageOf.tokenId {d : GrammarDefinition} (h : IsStageOf d stage) (hd : d.Reachable)
    (hid : d.tokenId? name = some id) : stage.tokenId name = .ok id := by
  cases h with
  | opened => exact tokenId_opened_iff.2 hid
  | built hbuild => exact tokenId_built hd hbuild hid

/-- An operation of the host leads to a stage that can be reached. -/
theorem IsReachable.perform (h : IsReachable stage)
    (op : Stage.Operation GrammarDefinition.Change) :
    IsReachable (ParserStage.perform stage op).2 := by
  rw [perform_eq]
  cases stage with
  | built p =>
    rw [Stage.perform_built]
    trivial
  | opened d =>
    cases op with
    | change c =>
      rw [Stage.perform_change_opened]
      exact GrammarDefinition.Reachable.apply h c
    | build =>
      rw [Stage.perform_build_opened]
      split
      · trivial
      · exact h

/-- Any operations of the host lead to a stage that can be reached. -/
theorem IsReachable.run (h : IsReachable stage)
    (operations : List (Stage.Operation GrammarDefinition.Change)) :
    IsReachable (Stage.run ParserStage.perform stage operations).2 := by
  induction operations generalizing stage with
  | nil => exact h
  | cons op operations ih => exact ih (h.perform op)

/-- **One operation**: a token keeps its identification, also when the parser is built. -/
theorem tokenId_perform (h : IsReachable stage) (hid : tokenId stage name = .ok id)
    (op : Stage.Operation GrammarDefinition.Change) :
    tokenId (perform stage op).2 name = .ok id := by
  rw [perform_eq]
  cases stage with
  | built p =>
    rw [Stage.perform_built]
    exact hid
  | opened d =>
    have hknown : d.tokenId? name = some id := tokenId_opened_iff.1 hid
    cases op with
    | change c =>
      rw [Stage.perform_change_opened]
      exact tokenId_opened_iff.2
        (GrammarDefinition.tokenId?_of_prefix (d.names_prefix_apply c) hknown)
    | build =>
      rw [Stage.perform_build_opened]
      split
      · next p hbuild => exact tokenId_built h hbuild hknown
      · exact hid

/-- **Some operations**: a token keeps its identification. -/
theorem tokenId_run (h : IsReachable stage) (hid : tokenId stage name = .ok id)
    (operations : List (Stage.Operation GrammarDefinition.Change)) :
    tokenId (Stage.run perform stage operations).2 name = .ok id := by
  induction operations generalizing stage with
  | nil => exact hid
  | cons op operations ih => exact ih (h.perform op) (tokenId_perform h hid op)

/-- Nothing is done to what has been built. -/
theorem run_built (p : Parser) (operations : List (Stage.Operation GrammarDefinition.Change)) :
    (Stage.run perform (.built p) operations).2 = .built p := by
  induction operations with
  | nil => rfl
  | cons op operations ih =>
    show (Stage.run perform (perform (.built p) op).2 operations).2 = .built p
    rw [perform_eq, Stage.perform_built, ← perform_eq]
    exact ih

/-- A parser is a stage of what the operations so far have defined. -/
theorem isStageOf_run (d : GrammarDefinition)
    (operations : List (Stage.Operation GrammarDefinition.Change)) :
    IsStageOf (d.definedBy operations) (Stage.run perform (.opened d) operations).2 := by
  induction operations generalizing d with
  | nil => exact .opened
  | cons op operations ih =>
    show IsStageOf _ (Stage.run perform (perform (.opened d) op).2 operations).2
    cases op with
    | change c =>
      rw [perform_eq, Stage.perform_change_opened, ← perform_eq]
      exact ih (d.apply c).2
    | build =>
      rw [perform_eq, Stage.perform_build_opened, ← perform_eq, GrammarDefinition.definedBy]
      cases hbuild : d.buildParser with
      | ok p =>
        rw [run_built]
        exact .built hbuild
      | error fault => exact ih d

/-- Behind any operations the host holds a stage of what they define.  The induction is on the
operations, and `ParserStage.IsStageOf` is what each of them keeps. -/
theorem isStageOf_behind (operations : List (Stage.Operation GrammarDefinition.Change)) :
    IsStageOf (GrammarDefinition.empty.definedBy operations) (behind operations) :=
  isStageOf_run _ operations

end ParserStage

/-- **The identifications of tokens do not change.**  They are the numbers from 1 to the number of
tokens, one for each name; a name keeps its own whatever is done to the definition, in the grammar
and in the parser that are made of it, and through all stages of a parser.  A parser answers the
identification of each token that has been defined, in front of the build and behind it. -/
theorem GrammarDefinition.tokenIds_stable (changes later : List Change) :
    let d := empty.applyAll changes
    let e := d.applyAll later
    (∀ name id, d.tokenId? name = some id → e.tokenId? name = some id) ∧
      (∀ name other id, d.tokenId? name = some id → d.tokenId? other = some id → name = other) ∧
      (∀ id, (∃ name, d.tokenId? name = some id) ↔ 1 ≤ id ∧ id ≤ d.tokens.size) ∧
      (∀ g, e.resolve = .ok g → g.symbols.Numbers e) ∧
      (∀ p, e.buildParser = .ok p → p.symbols.Numbers e) ∧
      (∀ stage, ParserStage.IsStageOf e stage → ∀ name id, d.tokenId? name = some id →
        stage.tokenId name = .ok id) ∧
      (∀ operations,
        ParserStage.IsStageOf (empty.definedBy operations) (ParserStage.behind operations) ∧
          ∀ further name id, (empty.definedBy operations).tokenId? name = some id →
            (ParserStage.behind (operations ++ further)).tokenId name = .ok id) ∧
      ∀ operations further name id, (ParserStage.behind operations).tokenId name = .ok id →
        (ParserStage.behind (operations ++ further)).tokenId name = .ok id := by
  have he : ((empty.applyAll changes).applyAll later).Reachable :=
    (Reachable.empty.applyAll changes).applyAll later
  have hlater : ∀ operations further name id,
      (ParserStage.behind operations).tokenId name = .ok id →
        (ParserStage.behind (operations ++ further)).tokenId name = .ok id := by
    intro operations further name id hid
    rw [ParserStage.behind, Stage.run_append]
    have hnew : ParserStage.IsReachable ParserStage.new := .empty
    exact ParserStage.tokenId_run (hnew.run operations) hid further
  refine ⟨fun name id hid => tokenId?_applyAll hid later,
    fun name other id => tokenId?_inj, fun id => exists_tokenId?_iff,
    fun g => numbers_of_resolve he, fun p => numbers_of_buildParser he,
    fun stage hstage name id hid => hstage.tokenId he (tokenId?_applyAll hid later), ?_, hlater⟩
  intro operations
  have hstage := ParserStage.isStageOf_behind operations
  refine ⟨hstage, fun further name id hid => hlater operations further name id ?_⟩
  exact hstage.tokenId (Reachable.empty.definedBy operations) hid

/-- Some changes of a grammar of lists.  The first one is refused. -/
def commaLists : List GrammarDefinition.Change :=
  [.tokens "ID $", .tokens "NUM", .productions "list" "list ',' NUM | NUM"]

/-- The same changes of a parser, behind a build that comes too early. -/
def commaOperations : List (Stage.Operation GrammarDefinition.Change) :=
  .build :: commaLists.map .change

/-- A declaration that fails declares no token, so the literal of a production is the second one: in
the definition, in the table of the symbols behind a further change, and in the answers of the
parser in front of the build and behind it. -/
theorem GrammarDefinition.tokenIds_stable_commas :
    (empty.applyAll commaLists).tokenId? "','" = some 2 ∧
      (∃ p, ((empty.applyAll commaLists).applyAll [.precedence .left "NUM"]).buildParser = .ok p ∧
        p.symbols.findTerminal? "','" = some 2 ∧ p.symbols.terminalName? 2 = some "','" ∧
        (ParserStage.tokenId (.built p) "','") = .ok 2) ∧
      (ParserStage.behind commaOperations).isSealed = false ∧
      (ParserStage.behind commaOperations).tokenId "','" = .ok 2 ∧
      (ParserStage.behind (commaOperations ++ [.build])).isSealed = true ∧
      (ParserStage.behind (commaOperations ++ [.build])).tokenId "','" = .ok 2 := by
  have hcomma : (empty.applyAll commaLists).tokenId? "','" = some 2 := by decide +kernel
  have hdefined : (empty.definedBy commaOperations).tokenId? "','" = some 2 := by decide +kernel
  have hbuilds : ((empty.applyAll commaLists).applyAll
      [.precedence .left "NUM"]).buildParser.map (fun _ => ()) = .ok () := by decide +kernel
  have hopen : (ParserStage.behind commaOperations).isSealed = false := by decide +kernel
  have hsealed : (ParserStage.behind (commaOperations ++ [.build])).isSealed = true := by
    decide +kernel
  obtain ⟨hkept, -, -, -, hnumbers, hanswers, hbehind, hlater⟩ :=
    tokenIds_stable commaLists [.precedence .left "NUM"]
  obtain ⟨p, hbuild, -⟩ := exists_of_map_eq_ok hbuilds
  have hlast := hkept "','" 2 hcomma
  have hanswer := (hbehind commaOperations).2 [] "','" 2 hdefined
  rw [List.append_nil] at hanswer
  exact ⟨hcomma, ⟨p, hbuild, (hnumbers p hbuild).findTerminal? _ _ hlast,
    (hnumbers p hbuild).terminalName? _ _ hlast, hanswers _ (.built hbuild) _ _ hcomma⟩, hopen,
    hanswer, hsealed, hlater _ _ _ _ hanswer⟩

end FrontEnd
