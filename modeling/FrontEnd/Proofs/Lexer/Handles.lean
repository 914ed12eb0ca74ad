import FrontEnd.Proofs.Lexer.Match
import FrontEnd.Proofs.Refusals
import FrontEnd.Proofs.Text.Bytes

/-!
# Handles of lexer states

The lexer states are numbered in the order in which they are declared, and the handle of a state is
its number, cut to 16 bits.  So are the states of a rule that is active everywhere the numbers below
the number of states, cut to 16 bits.  As long as there are fewer than 65536 declared states, all
handles are different and such a rule is active in all states; from there on they are not.

## Main Definitions

* `LexerDefinition.declared?` — the lexer state that an operation has declared, with its handle
* `LexerDefinition.StateHandles` — what declared states have to do with their handles and with rules

## Main Statements

* `LexerDefinition.states_performAll` — which names and which handles a run of operations declares
* `LexerDefinition.activeIn_iff_of_all` — where a rule is active that is declared for all states
* `LexerDefinition.stateHandles_performAll` — the handles and rules after any run of operations
* `LexerDefinition.handles_not_unique` — two states can have one handle

## Design Notes

The names of all declared states are kept, and only the handles are cut.  So the history of a run
says which names there are, and two handles are equal when the places of their names differ by a
multiple of 65536.
-/

namespace FrontEnd

/-- A number survives the cut when it has 16 bits. -/
theorem narrow16_eq_self_iff {n : Nat} : narrow16 n = n ↔ n < 65536 :=
  ⟨fun h => h ▸ Nat.mod_lt n (by decide), narrow16_of_lt⟩

/-- As many numbers as there are of 16 bits stay different when they are cut to 16 bits. -/
theorem nodup_map_narrow16_iff {n : Nat} : ((List.range n).map narrow16).Nodup ↔ n ≤ 65536 := by
  constructor
  · intro h
    by_contra hlt
    have hzero : 0 ∈ List.range n := List.mem_range.2 (by omega)
    have hwidth : 65536 ∈ List.range n := List.mem_range.2 (by omega)
    exact absurd (List.inj_on_of_nodup_map h hzero hwidth rfl) (by decide)
  · intro hle
    refine List.Nodup.map_on ?_ List.nodup_range
    intro i hi j hj heq
    have hi := List.mem_range.1 hi
    have hj := List.mem_range.1 hj
    rwa [narrow16_of_lt (by omega), narrow16_of_lt (by omega)] at heq

namespace LexerDefinition

/-! ### Declarations

An operation declares one lexer state at most, and what it answers is the handle.  The names of a
run and the handles that it has answered are found together, in one induction over the
operations. -/

/-- The lexer state that an operation has declared, with the handle that it has answered. -/
def declared? : Operation × Except LexerFault (Option Nat) → Option (String × Nat)
  | (.change (.state name), .ok (some handle)) => some (name, handle)
  | _ => none

/-- A new name of a lexer state is entered behind the others. -/
theorem addState_of_new {d : LexerDefinition} {name : String} (hname : isStateName name = true)
    (hnew : name ∉ d.states.toList) :
    d.addState name = (.ok (narrow16 d.numStates), { d with states := d.states.add name }) := by
  have hcontains : d.states.contains name = false := by
    rw [NameList.contains, NameList.indexOf?_eq_none_iff.2 hnew]
    rfl
  unfold addState
  rw [hname, hcontains]
  rfl

/-- A name that is not new, or not one of a lexer state, is refused. -/
theorem addState_cases (d : LexerDefinition) (name : String) :
    (∃ fault, d.addState name = (.error fault, d)) ∨
      isStateName name = true ∧ name ∉ d.states.toList := by
  cases hname : isStateName name with
  | false => exact .inl ⟨.invalidStateName name, by unfold addState; rw [hname]; rfl⟩
  | true =>
    by_cases hnew : name ∈ d.states.toList
    · have hcontains : d.states.contains name = true := by
        rw [NameList.contains, Option.isSome_iff_ne_none, ne_eq, NameList.indexOf?_eq_none_iff,
          not_not]
        exact hnew
      exact .inl ⟨.duplicateState name, by unfold addState; rw [hname, hcontains]; rfl⟩
    · exact .inr ⟨rfl, hnew⟩

/-- A rule declares no lexer state. -/
theorem states_addRule (d : LexerDefinition) (rule : Rule) :
    (d.addRule rule).2.states = d.states := by
  unfold addRule
  split <;> rfl

/-- An operation declares no lexer state and keeps the states, or it declares one behind them, whose
handle is the number of the states in front of it. -/
theorem perform_cases (d : LexerDefinition) (op : Operation) :
    (declared? (op, (d.perform op).1) = none ∧ (d.perform op).2.states = d.states) ∨
    ∃ name, declared? (op, (d.perform op).1) = some (name, narrow16 d.numStates) ∧
      (d.perform op).2.states.toList = d.states.toList ++ [name] := by
  cases op with
  | pattern name pattern =>
    refine .inl ⟨rfl, ?_⟩
    show (d.namePattern name pattern).2.states = d.states
    unfold namePattern
    repeat' split
    all_goals rfl
  | change c =>
    cases c with
    | rule rule => exact .inl ⟨rfl, d.states_addRule rule⟩
    | ruleIn states destination rule => exact .inl ⟨rfl, d.states_addRule _⟩
    | flags bits => exact .inl ⟨rfl, rfl⟩
    | state name =>
      rcases d.addState_cases name with ⟨fault, hfault⟩ | ⟨hname, hnew⟩
      · refine .inl ?_
        simp only [perform, apply, hfault]
        exact ⟨rfl, rfl⟩
      · refine .inr ⟨name, ?_⟩
        simp only [perform, apply, addState_of_new hname hnew]
        exact ⟨rfl, NameList.toList_add.trans (if_neg hnew)⟩

/-- **The declared states** stand behind the earlier ones in the order of their declaration, and
their handles are their numbers, cut to 16 bits. -/
theorem states_performAll (d : LexerDefinition) (ops : List Operation) :
    let declared := (performAll perform d ops).1.filterMap declared?
    (performAll perform d ops).2.states.toList = d.states.toList ++ declared.map Prod.fst ∧
      declared.map Prod.snd =
        (List.range declared.length).map fun k => narrow16 (d.numStates + k) := by
  induction ops generalizing d with
  | nil => simp [performAll]
  | cons op ops ih =>
    obtain ⟨hstates, hhandles⟩ := ih (d.perform op).2
    rcases d.perform_cases op with ⟨hnone, hkept⟩ | ⟨name, hsome, hadded⟩
    · have hcount : (d.perform op).2.numStates = d.numStates := congrArg NameList.size hkept
      simp only [performAll, List.filterMap_cons_none hnone]
      rw [hkept] at hstates
      rw [hcount] at hhandles
      exact ⟨hstates, hhandles⟩
    · have hcount : (d.perform op).2.numStates = d.numStates + 1 := by
        have hlength := congrArg List.length hadded
        rwa [List.length_append, NameList.length_toList, NameList.length_toList] at hlength
      simp only [performAll, List.filterMap_cons_some hsome]
      rw [hadded] at hstates
      rw [hcount] at hhandles
      refine ⟨by simpa using hstates, ?_⟩
      rw [List.map_cons, hhandles, List.length_cons, List.range_succ_eq_map, List.map_cons,
        List.map_map]
      simp [Function.comp_def, Nat.add_assoc, Nat.add_comm 1]

/-! ### Rules for all states

A rule for all states is active in the lexer states below the number of states, cut to 16 bits.
There are none of them when the number is 65536. -/

variable {d : LexerDefinition}

/-- **A rule that is declared for all states** is active in the states whose numbers are below the
number of states, cut to 16 bits. -/
theorem activeIn_iff_of_all {l : Lexer} (hbuild : d.build = .ok l) {id : Nat} {rule : Rule}
    (hrule : d.allRules[id]? = some rule) (hall : rule.scope = .all) (state : Nat) :
    d.ActiveIn id state ↔ state < narrow16 d.numStates := by
  obtain ⟨resolved, hresolved, -⟩ := exists_of_build hbuild
  have hlt : id < resolved.length := by
    rw [length_of_resolveFrom hresolved]
    exact (List.getElem?_eq_some_iff.1 hrule).choose
  obtain ⟨rule', hrule', hresolve⟩ :=
    (getElem?_of_resolveFrom hresolved).1 (List.getElem?_eq_getElem hlt)
  obtain rfl : rule = rule' := Option.some.inj (hrule.symm.trans hrule')
  rw [Nat.zero_add] at hresolve
  have hstates : ∀ r, d.resolve id rule = .ok r → r.states = List.range (narrow16 d.numStates) := by
    intro r hr
    have hscope := (stages_of_resolve hr).2.2.1
    rw [hall] at hscope
    exact (Except.ok.inj hscope).symm
  constructor
  · rintro ⟨rule', r, hrule', hr, hmem⟩
    obtain rfl : rule = rule' := Option.some.inj (hrule.symm.trans hrule')
    exact List.mem_range.1 (hstates r hr ▸ hmem)
  · intro hstate
    exact ⟨rule, _, hrule, hresolve, hstates _ hresolve ▸ List.mem_range.2 hstate⟩

/-- When all rules are declared for all states, nothing is found in the other states. -/
theorem longestMatch_eq_none_of_all {l : Lexer} (hbuild : d.build = .ok l)
    (hall : ∀ rule ∈ d.allRules, rule.scope = .all) {input : List UInt8} {start state : Nat}
    (hstart : start ≤ input.length) (hstate : state < d.numStates)
    (hbeyond : narrow16 d.numStates ≤ state) : l.longestMatch input start state = none := by
  have hlongest := Lexer.isLongest_active hbuild input hstart hstate
  cases hfound : l.longestMatch input start state with
  | none => rfl
  | some found =>
    rw [hfound] at hlongest
    obtain ⟨⟨hactive, rule, first, hrule, -⟩, -⟩ := hlongest
    have hlt := (activeIn_iff_of_all hbuild hrule (hall rule (List.mem_of_getElem? hrule)) state).1
      hactive
    exact absurd hbeyond (Nat.not_le_of_lt hlt)

/-- The lexer states that have been declared, each with its handle, and the rules that are declared
for all states. -/
structure StateHandles (d : LexerDefinition) (declared : List (String × Nat)) : Prop where
  /-- The states are the initial one and the declared ones, in the order of their declaration. -/
  states_eq : d.states.toList = initialStateName :: declared.map Prod.fst
  /-- A handle is the number of the state, cut to 16 bits. -/
  handles_eq : declared.map Prod.snd = (List.range declared.length).map fun k => narrow16 (k + 1)
  stateId?_eq : ∀ s ∈ declared, d.stateId? s.1 = some s.2
  /-- A handle stands for the state that has got it as long as nothing has been cut off. -/
  stateName?_iff : ∀ k name handle, declared[k]? = some (name, handle) →
    (d.stateName? handle = some name ↔ k + 1 < 65536)
  /-- The handles, that of the initial state included, are different while there are enough. -/
  nodup_iff : (initialState :: declared.map Prod.snd).Nodup ↔ declared.length < 65536
  /-- The longest match of the active rules is found. -/
  isLongest : ∀ l, d.build = .ok l → ∀ input start state, start ≤ input.length →
    state < d.numStates →
      IsLongest (fun id stop => d.ActiveIn id state ∧ d.MatchesBetween input start id stop)
        (l.longestMatch input start state)
  /-- Where a rule is active that is declared for all states. -/
  activeIn_iff : ∀ l, d.build = .ok l → ∀ id rule, d.allRules[id]? = some rule →
    rule.scope = .all → ∀ state, d.ActiveIn id state ↔ state < narrow16 d.numStates
  /-- Such a rule is active in all states while their number is not cut. -/
  everywhere_iff : ∀ l, d.build = .ok l → ∀ id rule, d.allRules[id]? = some rule →
    rule.scope = .all → ((∀ state < d.numStates, d.ActiveIn id state) ↔ d.numStates < 65536)

section Declared

variable {declared : List (String × Nat)}
  (hstates : d.states.toList = initialStateName :: declared.map Prod.fst)
  (hhandles : declared.map Prod.snd = (List.range declared.length).map fun k => narrow16 (k + 1))

include hhandles

/-- With fewer than 65536 declared states, the handles of all states are different, and with more
they are not. -/
theorem nodup_handles_iff :
    (initialState :: declared.map Prod.snd).Nodup ↔ declared.length < 65536 := by
  have hall : initialState :: declared.map Prod.snd =
      (List.range (declared.length + 1)).map narrow16 := by
    rw [List.range_succ_eq_map, List.map_cons, List.map_map, hhandles]
    rfl
  rw [hall, nodup_map_narrow16_iff, Nat.succ_le_iff]

include hstates

/-- A declared state stands at its number. -/
theorem getElem?_of_declared {k : Nat} {name : String} {handle : Nat}
    (hk : declared[k]? = some (name, handle)) :
    handle = narrow16 (k + 1) ∧ d.states.indexOf? name = some (k + 1) := by
  have hlt := (List.getElem?_eq_some_iff.1 hk).choose
  have hhandle := congrArg (·[k]?) hhandles
  simp only [List.getElem?_map, hk, List.getElem?_range hlt, Option.map_some] at hhandle
  refine ⟨Option.some.inj hhandle, ?_⟩
  rw [NameList.indexOf?_eq_some_iff, NameList.get?_eq, hstates, List.getElem?_cons_succ,
    List.getElem?_map, hk]
  rfl

/-- The handle of a declared state leads back to its name as long as it has not been cut. -/
theorem stateName?_iff_of_declared {k : Nat} {name : String} {handle : Nat}
    (hk : declared[k]? = some (name, handle)) :
    d.stateName? handle = some name ↔ k + 1 < 65536 := by
  obtain ⟨rfl, hindex⟩ := getElem?_of_declared hstates hhandles hk
  rw [← narrow16_eq_self_iff, stateName?, ← NameList.indexOf?_eq_some_iff, hindex,
    Option.some.injEq, eq_comm]

end Declared

/-- **Handles and rules after any operations.**  A declared state is looked up by its name always,
and by its handle while its number has 16 bits; the handles are different, and rules for all states
are active in all of them, while there are fewer than 65536 declared states. -/
theorem stateHandles_performAll (ops : List Operation) :
    (performAll perform empty ops).2.StateHandles
      ((performAll perform empty ops).1.filterMap declared?) := by
  obtain ⟨hstates, hhandles⟩ := states_performAll empty ops
  have hone : (empty.numStates + ·) = (· + 1) := funext fun k => Nat.add_comm 1 k
  change _ = List.map (narrow16 ∘ (empty.numStates + ·)) _ at hhandles
  rw [hone] at hhandles
  refine ⟨hstates, hhandles, ?_, ?_, ?_, ?_, ?_, ?_⟩
  · intro s hs
    obtain ⟨k, hk⟩ := List.mem_iff_getElem?.1 hs
    obtain ⟨hhandle, hindex⟩ := getElem?_of_declared hstates hhandles hk
    rw [stateId?, hindex, hhandle]
    rfl
  · exact fun k name handle => stateName?_iff_of_declared hstates hhandles
  · exact nodup_handles_iff hhandles
  · intro l hbuild input start state hstart hstate
    exact Lexer.isLongest_active hbuild input hstart hstate
  · intro l hbuild id rule hrule hall state
    exact activeIn_iff_of_all hbuild hrule hall state
  · intro l hbuild id rule hrule hall
    rw [forall₂_congr fun state _ => activeIn_iff_of_all hbuild hrule hall state,
      forall_lt_iff_le, ← narrow16_eq_self_iff]
    exact ⟨(narrow16_le _).antisymm, ge_of_eq⟩

/-! ### More states than handles

Numbered names are as many different names as needed.  With 65536 declared states the last handle is
that of the initial state. -/

/-- New names of lexer states are all declared, and nothing else changes. -/
theorem performAll_states {names : List String} (hnames : ∀ name ∈ names, isStateName name = true)
    (d : LexerDefinition) (hfresh : (d.states.toList ++ names).Nodup) :
    let run := performAll perform d (names.map fun name => .change (.state name))
    (run.1.filterMap declared?).map Prod.fst = names ∧
      run.2 = { d with states := names.foldl NameList.add d.states } := by
  induction names generalizing d with
  | nil => exact ⟨rfl, rfl⟩
  | cons name names ih =>
    obtain ⟨hname, hnames⟩ := List.forall_mem_cons.1 hnames
    have hnew : name ∉ d.states.toList := fun hmem =>
      (List.disjoint_of_nodup_append hfresh) hmem List.mem_cons_self
    have hadded : (d.states.add name).toList = d.states.toList ++ [name] :=
      NameList.toList_add.trans (if_neg hnew)
    obtain ⟨hdeclared, hlast⟩ := ih hnames { d with states := d.states.add name }
      (by simpa [hadded] using hfresh)
    simp only [List.map_cons, performAll, perform, apply, addState_of_new hname hnew]
    exact ⟨congrArg (name :: ·) hdeclared, hlast⟩

/-- Declarations of lexer states under numbered names. -/
def numberedStates (count : Nat) : List Operation :=
  (numberedNames "S" count).map fun name => .change (.state name)

/-- Numbered names can be names of lexer states. -/
theorem isStateName_of_mem_numberedNames {count : Nat} :
    ∀ name ∈ numberedNames "S" count, isStateName name = true := by
  intro name hname
  obtain ⟨n, -, rfl⟩ := List.mem_map.1 hname
  have hbytes : bytesOf ("S" ++ toString n) = 0x53 :: digits n := by
    rw [bytesOf_append, Nat.toString_eq_repr, bytesOf_repr]
    rfl
  unfold isStateName isName
  rw [hbytes]
  simp only [Bool.and_eq_true, List.all_eq_true, Bool.or_eq_true]
  exact ⟨rfl, fun b hb => .inr (isDigit_of_mem_digits b hb)⟩

/-- The numbered names and the name of the initial state are different. -/
theorem nodup_numberedStates (count : Nat) :
    (empty.states.toList ++ numberedNames "S" count).Nodup := by
  have hinitial : empty.states.toList = [initialStateName] := by simp [empty, NameList.toList_add]
  rw [hinitial, List.singleton_append, List.nodup_cons]
  refine ⟨fun hmem => ?_, nodup_numberedNames "S" count⟩
  obtain ⟨n, -, heq⟩ := List.mem_map.1 hmem
  have hhead := congrArg (fun s => s.toList.head?) heq
  simp [initialStateName] at hhead

/-- Declaring numbered names declares them all. -/
theorem map_fst_numberedStates (count : Nat) :
    ((performAll perform empty (numberedStates count)).1.filterMap declared?).map Prod.fst =
      numberedNames "S" count :=
  (performAll_states isStateName_of_mem_numberedNames empty (nodup_numberedStates count)).1

/-- The numbered names are declared with their numbers, cut to 16 bits, as handles. -/
theorem declared_numberedStates {count k : Nat} (hk : k < count) :
    ((performAll perform empty (numberedStates count)).1.filterMap declared?)[k]? =
      some ("S" ++ toString k, narrow16 (1 + k)) := by
  have hnames := map_fst_numberedStates count
  obtain ⟨-, hhandles⟩ := states_performAll empty (numberedStates count)
  generalize (performAll perform empty (numberedStates count)).1.filterMap declared? = declared
    at hnames hhandles ⊢
  have hlength : declared.length = count := by
    rw [← length_numberedNames "S" count, ← hnames, List.length_map]
  have hlt : k < declared.length := hlength ▸ hk
  have hname := congrArg (·[k]?) hnames
  have hhandle := congrArg (·[k]?) hhandles
  simp only [getElem?_numberedNames "S" hk, List.getElem?_map, List.getElem?_range hlt,
    List.getElem?_eq_getElem hlt, Option.map_some, Option.some.injEq] at hname hhandle
  rw [List.getElem?_eq_getElem hlt, ← hname]
  exact congrArg some (Prod.ext rfl hhandle)

/-- A letter that is a token in all lexer states. -/
def letterEverywhere : Rule := { Rule.simple "a" 300 with scope := .all }

/-- A definition of the letter alone is built, whatever its lexer states are. -/
theorem exists_build_letterEverywhere (hall : d.allRules = [letterEverywhere])
    (hnamed : d.named = NameTable.empty) (hflags : d.flags = Flags.none) :
    ∃ l, d.build = .ok l ∧ l.numStates = d.numStates := by
  have hparse : (Regex.parse Flags.none NameTable.empty "a").map Regex.nullable = .ok false := by
    decide +kernel
  obtain ⟨r, hr, hnullable⟩ := exists_of_map_eq_ok hparse
  have hread : d.readPattern 0 letterEverywhere.pattern = .ok r := by
    rw [← hflags, ← hnamed] at hr
    simp only [readPattern, letterEverywhere, Rule.simple, hr]
  have hresolve : d.resolve 0 letterEverywhere =
      .ok ⟨r, none, List.range (narrow16 d.numStates), .stay⟩ := by
    unfold resolve
    rw [hread]
    simp only [readStop, letterEverywhere, Rule.simple, matchesEmpty, hnullable, Bool.false_and]
    rfl
  refine ⟨d.assemble [⟨r, none, List.range (narrow16 d.numStates), .stay⟩], ?_, rfl⟩
  simp only [build, hall, resolveFrom, hresolve]
  rfl

/-- The numbered states with the letter in all of them. -/
def letterInNumberedStates (count : Nat) : LexerDefinition :=
  ((performAll perform empty (numberedStates count)).2.addRule letterEverywhere).2

/-- The definition with so many states and one rule, written out. -/
theorem letterInNumberedStates_eq (count : Nat) : letterInNumberedStates count =
    { empty with
      states := (numberedNames "S" count).foldl NameList.add empty.states
      rules := [letterEverywhere] } := by
  obtain ⟨-, hlast⟩ := performAll_states isStateName_of_mem_numberedNames empty
    (nodup_numberedStates count)
  rw [letterInNumberedStates, numberedStates, hlast]
  rfl

/-- There are as many states as names, and the initial one. -/
theorem numStates_letterInNumberedStates (count : Nat) :
    (letterInNumberedStates count).numStates = count + 1 := by
  obtain ⟨hstates, -⟩ := states_performAll empty (numberedStates count)
  rw [letterInNumberedStates, numStates, states_addRule]
  have hlength := congrArg List.length hstates
  rw [map_fst_numberedStates, NameList.length_toList, List.length_append, length_numberedNames,
    Nat.add_comm] at hlength
  exact hlength

/-- **Handles are not unique when there are too many states.**  Of 65536 declared states the last
one gets the handle of the initial state, which stands for this one only.  And next to 65535
declared states a letter that is a token in all of them is found in none. -/
theorem handles_not_unique :
    (("S" ++ toString 65535, initialState) ∈
        (performAll perform empty (numberedStates 65536)).1.filterMap declared? ∧
      (performAll perform empty (numberedStates 65536)).2.stateName? initialState =
        some initialStateName) ∧
    ∃ l, (letterInNumberedStates 65535).build = .ok l ∧ l.numStates = 65536 ∧
      ∀ input start state, start ≤ input.length → state < l.numStates →
        l.longestMatch input start state = none := by
  constructor
  · have hlast := declared_numberedStates (show 65535 < 65536 by decide)
    refine ⟨List.mem_of_getElem? hlast, ?_⟩
    rw [stateName?, NameList.get?_eq, (states_performAll empty _).1]
    rfl
  · have hd := letterInNumberedStates_eq 65535
    have hall : (letterInNumberedStates 65535).allRules = [letterEverywhere] := by rw [hd]; rfl
    obtain ⟨l, hbuild, hcount⟩ := exists_build_letterEverywhere hall (by rw [hd]; rfl)
      (by rw [hd]; rfl)
    have hsize := numStates_letterInNumberedStates 65535
    refine ⟨l, hbuild, hcount.trans hsize, fun input start state hstart hstate => ?_⟩
    refine longestMatch_eq_none_of_all hbuild ?_ hstart (hcount ▸ hstate) ?_
    · rw [hall]
      exact List.forall_mem_singleton.2 rfl
    · rw [hsize, narrow16, Nat.mod_self]
      exact Nat.zero_le _

end LexerDefinition

end FrontEnd
