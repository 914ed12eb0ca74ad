import FrontEnd.Proofs.Lalr.Increments

/-!
# Conflicts and their messages

What a state can do with a terminal is what its items make of the terminal: a move over it, the
completed items that it stands behind, and the end of the input.  Each entry of the tables is
decided from that, whatever has been entered before it, and the log holds the messages about all
entries in the order of the tables.

Which terminals stand behind the items of a state is left open here.  The rule of the canonical
construction gives most of them (`Grammar.Given`), the construction of the tables has them all
(`Grammar.Foreseen`), and the two differ only in the closure of an item that nothing can be seen
behind.

## Main Definitions

* `Grammar.IsCandidates` — what the items of a state make of a terminal
* `Precedence.Prefers`, `Grammar.Prefers` — the choice between a shift and a reduction
* `Grammar.nameOf`, `Grammar.written` — what messages call symbols and productions
* `Grammar.Decides` — the entry for what a state can do, with its messages
* `Grammar.Reports` — the tables and the log show what has been decided
* `Grammar.DecidedBy` — they show what terminals behind items make of all entries

## Main Statements

* `Grammar.isCandidates_candidates`, `Grammar.IsCandidates.decides` — each decision
* `Grammar.decided_eq_refusal` — where nothing is to be done, nothing is said
* `GrammarDefinition.decidedBy_foreseen` — the tables and the log of a grammar
* `GrammarDefinition.not_decidedBy_dangling` — the rule of the canonical construction does not give
  all entries

## Design Notes

The messages are spelled here a second time, from the names in the table of symbols and without the
functions that write them.  So an entry, the level of its message and each word of it are fixed by
what the state can do.
-/

namespace FrontEnd

/-- A terminal is refused without a message. -/
def Decision.refusal : Decision := ⟨.error .unexpected, [], 0, 0⟩

/-- The choice by the precedences of a production and of a terminal.  The higher level wins, and on
one level the associativity of the terminal decides if it has one. -/
inductive Precedence.Prefers (production terminal : Precedence) (target p : Nat) :
    Action → Bool → Prop
  | higherProduction : terminal.level < production.level →
    Prefers production terminal target p (.reduce p) true
  | higherTerminal : production.level < terminal.level →
    Prefers production terminal target p (.shift target) true
  | left : production.level = terminal.level → terminal.associativity = .left →
    Prefers production terminal target p (.reduce p) true
  | right : production.level = terminal.level → terminal.associativity = .right →
    Prefers production terminal target p (.shift target) true
  | nonAssociative : production.level = terminal.level → terminal.associativity = .nonAssociative →
    Prefers production terminal target p (.error .nonAssociative) true
  | unspecified : production.level = terminal.level → terminal.associativity = .unspecified →
    Prefers production terminal target p (.shift target) false

namespace Grammar

/-! ### What is decided

The candidates of an entry are read off the items of its state, in whatever order they come.  The
choice between a shift and a reduction is a relation with one case for each rule. -/

/-- A production can be reduced in front of a terminal that stands behind its completed item. -/
def CanReduce (g : Grammar) (follows : Item → TokenId → Prop) (t : TokenId) (p : Nat) : Prop :=
  ∃ production, g.productions[p]? = some production ∧ follows ⟨p, production.rhs.length⟩ t

/-- What a state can do with a terminal is what its items make of it: the move over the terminal,
the end where the kernel has the completed first item, and the reductions in ascending order. -/
structure IsCandidates (g : Grammar) (follows : Item → TokenId → Prop) (s : Nat) (t : TokenId)
    (c : Candidates) : Prop where
  shift : c.shift = g.automaton.target? s (.terminal t)
  accept_iff : c.accept = true ↔
    t = TokenId.endOfInput ∧ ⟨g.acceptProduction, 1⟩ ∈ g.automaton.kernel s
  ascending : c.reductions.Pairwise (· < ·)
  mem_reductions : ∀ p, p ∈ c.reductions ↔ g.CanReduce follows t p

/-- The choice between a shift and a reduction, and whether precedence makes it.  Without a
precedence of the production or of the terminal, the terminal is shifted. -/
inductive Prefers (g : Grammar) (t : TokenId) (target p : Nat) : Action → Bool → Prop
  | levels {x y : Precedence} {action : Action} {byPrecedence : Bool} :
    g.productions[p]?.bind Production.precedence = some x → g.symbols.precedence? t = some y →
    x.Prefers y target p action byPrecedence → Prefers g t target p action byPrecedence
  | noProductionPrecedence : g.productions[p]?.bind Production.precedence = none →
    Prefers g t target p (.shift target) false
  | noTerminalPrecedence : g.symbols.precedence? t = none →
    Prefers g t target p (.shift target) false

/-! ### What is said

Each message is spelled out from the names in the table of symbols.  A decision has the action, the
messages in order, and what it adds to the two counts of conflicts. -/

/-- What messages call a symbol: the name in the table of symbols. -/
def nameOf (g : Grammar) : Symbol → String
  | .terminal t => if t = TokenId.endOfInput then "$end" else (g.symbols.terminalName? t).getD ""
  | .nonterminal v => (g.symbols.nonterminalName? v).getD ""

/-- How messages write a production. -/
def written (g : Grammar) (p : Nat) : String :=
  match g.productions[p]? with
  | some production => g.nameOf (.nonterminal production.lhs) ++ " -> " ++
      match production.rhs with
      | [] => "%empty"
      | rhs => String.intercalate " " (rhs.map g.nameOf)
  | none => ""

/-- The warnings about several reductions, of which the first one is chosen.  There is none where
there is one reduction only. -/
def reduceReduceWarnings (g : Grammar) (s : Nat) (t : TokenId) (p : Nat) :
    List Nat → List Log.Message
  | [] => []
  | q :: others => [⟨.warning, "state " ++ toString s ++ ": reduce/reduce conflict on " ++
      g.nameOf (.terminal t) ++ ", reducing " ++ g.written p ++ " instead of " ++
      String.intercalate ", " ((q :: others).map g.written)⟩]

/-- The warning about a reduction in the place of the end. -/
def acceptReduceWarning (g : Grammar) (s : Nat) (t : TokenId) (p : Nat) : Log.Message :=
  ⟨.warning, "state " ++ toString s ++ ": accept/reduce conflict on " ++ g.nameOf (.terminal t) ++
    ", accepting instead of reducing " ++ g.written p⟩

/-- The warning about a reduction in the place of a shift that nothing has decided against. -/
def shiftReduceWarning (g : Grammar) (s : Nat) (t : TokenId) (target p : Nat) : Log.Message :=
  ⟨.warning, "state " ++ toString s ++ ": shift/reduce conflict on " ++ g.nameOf (.terminal t) ++
    " with " ++ g.written p ++ ", resolved as shift " ++ toString target⟩

/-- What a precedence can have chosen. -/
def outcome : Action → String
  | .shift target => "shift " ++ toString target
  | .reduce p => "reduce " ++ toString p
  | _ => "error (non-associative operator)"

/-- The note about a choice that a precedence has made between a shift and a reduction. -/
def precedenceNote (g : Grammar) (s : Nat) (t : TokenId) (p : Nat) (action : Action) :
    Log.Message :=
  ⟨.note, "state " ++ toString s ++ ": shift/reduce conflict on " ++ g.nameOf (.terminal t) ++
    " with " ++ g.written p ++ ", resolved as " ++ outcome action ++ " by precedence"⟩

/-- What is decided for a state and a terminal.  The end comes before any reduction, and of several
reductions the first one is taken.  Only conflicts that no precedence has decided are counted. -/
inductive Decides (g : Grammar) (s : Nat) (t : TokenId) : Candidates → Decision → Prop
  | refuse : Decides g s t ⟨none, false, []⟩ .refusal
  | shift (target : Nat) : Decides g s t ⟨some target, false, []⟩ ⟨.shift target, [], 0, 0⟩
  | accept : Decides g s t ⟨none, true, []⟩ ⟨.accept, [], 0, 0⟩
  | acceptReduce (p : Nat) (others : List Nat) :
    Decides g s t ⟨none, true, p :: others⟩
      ⟨.accept, g.reduceReduceWarnings s t p others ++ [g.acceptReduceWarning s t p], 0,
        (g.reduceReduceWarnings s t p others).length⟩
  | reduce (p : Nat) (others : List Nat) :
    Decides g s t ⟨none, false, p :: others⟩
      ⟨.reduce p, g.reduceReduceWarnings s t p others, 0,
        (g.reduceReduceWarnings s t p others).length⟩
  | byPrecedence (target p : Nat) (others : List Nat) {action : Action} :
    g.Prefers t target p action true →
    Decides g s t ⟨some target, false, p :: others⟩
      ⟨action, g.reduceReduceWarnings s t p others ++ [g.precedenceNote s t p action], 0,
        (g.reduceReduceWarnings s t p others).length⟩
  | undecided (target p : Nat) (others : List Nat) :
    g.Prefers t target p (.shift target) false →
    Decides g s t ⟨some target, false, p :: others⟩
      ⟨.shift target, g.reduceReduceWarnings s t p others ++ [g.shiftReduceWarning s t target p], 1,
        (g.reduceReduceWarnings s t p others).length⟩

/-- The decisions for all states and all terminals, in the order of the tables. -/
def inOrder (g : Grammar) (decision : Nat → Nat → Decision) : List Decision :=
  (List.range g.automaton.size).flatMap fun s => (List.range g.numTerminals).map (decision s)

/-- The note that counts the conflicts that precedence has not decided. -/
def closingNote (numStates shiftReduce reduceReduce : Nat) : Log.Message :=
  ⟨.note, "LALR(1) tables: " ++ toString numStates ++ " states, " ++ toString shiftReduce ++
    " shift/reduce conflicts, " ++ toString reduceReduce ++ " reduce/reduce conflicts"⟩

variable {g : Grammar} {follows : Item → TokenId → Prop} {s : Nat} {t : TokenId} {c : Candidates}

/-- The choice that is made follows the rules for precedences. -/
theorem prefers_resolveShiftReduce (g : Grammar) (t : TokenId) (target p : Nat) :
    g.Prefers t target p (g.resolveShiftReduce t target p).1
      (g.resolveShiftReduce t target p).2 := by
  unfold resolveShiftReduce
  split
  · next x y hx hy =>
    refine .levels hx hy ?_
    split
    · next hlt => exact .higherProduction hlt
    · next hge =>
      split
      · next hlt => exact .higherTerminal hlt
      · next hle =>
        have hlevel : x.level = y.level := Nat.le_antisymm (Nat.not_lt.1 hge) (Nat.not_lt.1 hle)
        split
        · next h => exact .left hlevel h
        · next h => exact .right hlevel h
        · next h => exact .nonAssociative hlevel h
        · next h => exact .unspecified hlevel h
  · next hnone =>
    cases hx : g.productions[p]?.bind Production.precedence with
    | none => exact .noProductionPrecedence hx
    | some x =>
      cases hy : g.symbols.precedence? t with
      | none => exact .noTerminalPrecedence hy
      | some y => exact (hnone x y hx hy).elim

/-! ### Candidates

The reductions that are collected are those of the completed items, and the end is accepted with the
completed first item.  No state shifts a terminal where it accepts, so there is no choice between
these two. -/

/-- A reduction is justified by the completed item of its production, for in a closure no dot stands
behind the end. -/
theorem justified_reduce_iff (hg : g.WellFormed) {p : Nat} :
    g.Justified g.automaton (g.lookaheads g.automaton) s t (.reduce p) ↔
      g.CanReduce (g.Foreseen ((g.lookaheads g.automaton).state s)) t p := by
  have ha := g.isAutomaton_automaton
  constructor
  · rintro ⟨hne, i, hfollows, hcomplete, rfl⟩
    have hi : i ∈ g.closure (g.automaton.kernel s) :=
      (isLookaheads hg).isOver.map_fst s ▸ hfollows.mem_closure
    have hitem := ha.mem_items_of_mem_closure hi
    have hlt : i.production < g.productions.size :=
      Nat.lt_of_le_of_ne (mem_items.1 hitem).1 hne
    have hp : g.productions[i.production]? = some g.productions[i.production] :=
      Array.getElem?_eq_getElem hlt
    refine ⟨_, hp, ?_⟩
    rw [← rhsOf_of_getElem? hp, ← dot_eq_of_isComplete hitem hcomplete]
    exact (follows_iff_foreseen hg).1 hfollows
  · rintro ⟨production, hp, hforeseen⟩
    refine ⟨Nat.ne_of_lt (Array.getElem?_eq_some_iff.1 hp).choose, _,
      (follows_iff_foreseen hg).2 hforeseen, ?_, rfl⟩
    exact isComplete_of_dot_eq (by rw [rhsOf_of_getElem? hp])

/-- The end is justified by the completed first item, which can only be in the kernel. -/
theorem justified_accept_iff :
    g.Justified g.automaton (g.lookaheads g.automaton) s t .accept ↔
      t = TokenId.endOfInput ∧ ⟨g.acceptProduction, 1⟩ ∈ g.automaton.kernel s := by
  refine and_congr_right fun _ =>
    ⟨?_, fun hi => ⟨_, mem_closure_of_mem hi, g.isComplete_accept, rfl⟩⟩
  rintro ⟨⟨p, dot⟩, hi, hcomplete, rfl⟩
  have hdot := dot_eq_of_isComplete (g.isAutomaton_automaton.mem_items_of_mem_closure hi) hcomplete
  rw [g.rhsOf_accept] at hdot
  obtain rfl : dot = 1 := hdot
  exact IsAutomaton.mem_kernel_of_dot_pos hi Nat.one_pos

/-- The candidates are what the items of the state make of the terminal. -/
theorem isCandidates_candidates (hg : g.WellFormed) (s : Nat) (t : TokenId) :
    g.IsCandidates (g.Foreseen ((g.lookaheads g.automaton).state s)) s t
      (g.candidates g.automaton (g.completionsOf (g.lookaheads g.automaton) s) s t) where
  shift := rfl
  accept_iff := by
    rw [← justified_accept_iff, ← allows_candidates_iff hg (isLookaheads hg)]
    exact Iff.rfl
  ascending := by
    have horder : Sorted.Order fun p q : Nat => decide (p < q) := by
      refine ⟨?_, ?_, ?_⟩ <;> grind
    refine List.Pairwise.imp ?_ (Sorted.isSorted_ofList horder _)
    exact fun h => of_decide_eq_true h
  mem_reductions := fun p => by
    rw [← justified_reduce_iff hg, ← allows_candidates_iff hg (isLookaheads hg)]
    exact Iff.rfl

/-- No terminal is shifted where the end is: there is no move over the end of the input. -/
theorem IsCandidates.shift_eq_none (h : g.IsCandidates follows s t c) (hg : g.WellFormed)
    (haccept : c.accept = true) : c.shift = none := by
  obtain ⟨rfl, -⟩ := h.accept_iff.1 haccept
  rw [h.shift]
  cases htarget : g.automaton.target? s (.terminal TokenId.endOfInput) with
  | none => rfl
  | some target => exact (id_ne_of_target? hg htarget rfl).elim

/-- A reduction is one by a production of the grammar. -/
theorem IsCandidates.lt_size (h : g.IsCandidates follows s t c) {p : Nat} (hp : p ∈ c.reductions) :
    p < g.productions.size := by
  obtain ⟨production, hget, -⟩ := (h.mem_reductions p).1 hp
  exact (Array.getElem?_eq_some_iff.1 hget).choose

/-- Other terminals behind the items make the same of them when they are the same ones. -/
theorem IsCandidates.congr {follows' : Item → TokenId → Prop} (h : g.IsCandidates follows s t c)
    (hsame : ∀ i u, follows i u ↔ follows' i u) : g.IsCandidates follows' s t c :=
  { h with mem_reductions := fun p => by simp only [h.mem_reductions, CanReduce, hsame] }

/-! ### The words of messages

The names in a message come from the table of symbols.  They are there for all symbols that
productions use and for all columns of the tables. -/

/-- A symbol of a right-hand side has a name in the table of symbols. -/
theorem symbolName_eq_nameOf {x : Symbol} (hx : g.InRange x) :
    g.symbols.symbolName x = g.nameOf x := by
  cases x with
  | terminal t =>
    obtain ⟨n, rfl⟩ := Int.eq_ofNat_of_zero_le (Int.le_of_lt hx.1)
    have hlt : n < g.symbols.terminals.names.entries.size := Int.ofNat_lt.1 hx.2
    have hname : g.symbols.terminalName? (n : Int) = some g.symbols.terminals.names.entries[n] :=
      Array.getElem?_eq_getElem hlt
    rw [SymbolTable.symbolName, nameOf, hname]
    rfl
  | nonterminal v =>
    have hlt : v < g.symbols.nonterminals.entries.size := hx
    have hname : g.symbols.nonterminalName? v = some g.symbols.nonterminals.entries[v] :=
      Array.getElem?_eq_getElem hlt
    rw [SymbolTable.symbolName, nameOf, hname]
    rfl

/-- Each column has a name: the first one is the end of the input. -/
theorem terminalName_eq_nameOf {n : Nat} (hn : n < g.numTerminals) :
    g.terminalName (Int.ofNat n) = g.nameOf (.terminal (Int.ofNat n)) := by
  rcases Nat.eq_zero_or_pos n with rfl | hpos
  · rfl
  · exact symbolName_eq_nameOf ⟨Int.ofNat_lt.2 hpos, Int.ofNat_lt.2 hn⟩

/-- A production is written with the names of its symbols. -/
theorem productionName_eq_written (hg : g.WellFormed) {p : Nat} (hp : p < g.productions.size) :
    g.productionName p = g.written p := by
  have hget : g.productions[p]? = some g.productions[p] := Array.getElem?_eq_getElem hp
  have hmem := Array.getElem_mem hp
  have hlhs : g.symbols.symbolName (.nonterminal g.productions[p].lhs) =
      g.nameOf (.nonterminal g.productions[p].lhs) := symbolName_eq_nameOf (hg.lhs_lt _ hmem)
  have hrhs : g.productions[p].rhs.map g.symbols.symbolName = g.productions[p].rhs.map g.nameOf :=
    List.map_congr_left fun x hx => symbolName_eq_nameOf (hg.inRange _ hmem x hx)
  rw [productionName, written, hget]
  dsimp only
  rw [Production.display, hlhs, hrhs]
  cases g.productions[p].rhs <;> rfl

/-- What a precedence has chosen is shown by its own words. -/
theorem Prefers.display_eq {target p : Nat} {action : Action} {byPrecedence : Bool}
    (h : g.Prefers t target p action byPrecedence) : action.display = outcome action := by
  cases h with
  | levels _ _ h => cases h <;> rfl
  | noProductionPrecedence => rfl
  | noTerminalPrecedence => rfl

/-- What no precedence has decided is a shift. -/
theorem Prefers.eq_shift {target p : Nat} {action : Action}
    (h : g.Prefers t target p action false) :
    action = .shift target := by
  cases h with
  | levels _ _ h =>
    cases h
    rfl
  | noProductionPrecedence => rfl
  | noTerminalPrecedence => rfl

section Messages

variable {n p : Nat} {others : List Nat}

/-- The message about several reductions, and how often it is given. -/
theorem reduceReduceWarnings_eq (hg : g.WellFormed) (hn : n < g.numTerminals)
    (hall : ∀ q ∈ p :: others, q < g.productions.size) :
    (if others.isEmpty then [] else [g.reduceReduceMessage s (Int.ofNat n) p others]) =
        g.reduceReduceWarnings s (Int.ofNat n) p others ∧
      (if others.isEmpty then 0 else 1) =
        (g.reduceReduceWarnings s (Int.ofNat n) p others).length := by
  cases others with
  | nil => exact ⟨rfl, rfl⟩
  | cons q others =>
    have hname : ∀ r ∈ p :: q :: others, g.productionName r = g.written r :=
      fun r hr => productionName_eq_written hg (hall r hr)
    obtain ⟨hfirst, hothers⟩ := List.forall_mem_cons.1 hname
    refine ⟨?_, rfl⟩
    rw [reduceReduceMessage, terminalName_eq_nameOf hn, hfirst, List.map_congr_left hothers]
    rfl

/-- The message about a reduction in the place of the end. -/
theorem acceptReduceMessage_eq (hg : g.WellFormed) (hn : n < g.numTerminals)
    (hp : p < g.productions.size) :
    g.acceptReduceMessage s (Int.ofNat n) p = g.acceptReduceWarning s (Int.ofNat n) p := by
  rw [acceptReduceMessage, terminalName_eq_nameOf hn, productionName_eq_written hg hp]
  rfl

/-- The message about a choice that a precedence has made. -/
theorem shiftReduceMessage_eq_note (hg : g.WellFormed) (hn : n < g.numTerminals)
    (hp : p < g.productions.size) {target : Nat} {action : Action}
    (h : g.Prefers (Int.ofNat n) target p action true) :
    g.shiftReduceMessage s (Int.ofNat n) p action true =
      g.precedenceNote s (Int.ofNat n) p action := by
  rw [shiftReduceMessage, terminalName_eq_nameOf hn, productionName_eq_written hg hp, h.display_eq]
  rfl

/-- The message about a shift for want of a precedence. -/
theorem shiftReduceMessage_eq_warning (hg : g.WellFormed) (hn : n < g.numTerminals)
    (hp : p < g.productions.size) (target : Nat) :
    g.shiftReduceMessage s (Int.ofNat n) p (.shift target) false =
      g.shiftReduceWarning s (Int.ofNat n) target p := by
  have hwords : ", resolved as shift " = ", resolved as " ++ "shift " := by decide
  rw [shiftReduceMessage, terminalName_eq_nameOf hn, productionName_eq_written hg hp,
    shiftReduceWarning, hwords]
  simp only [Bool.false_eq_true, if_false, String.append_empty, Action.display, String.append_assoc]

end Messages

/-- **Each decision is the one for what the state can do**, and so are its messages. -/
theorem IsCandidates.decides {n : Nat} (h : g.IsCandidates follows s (Int.ofNat n) c)
    (hg : g.WellFormed) (hn : n < g.numTerminals) :
    g.Decides s (Int.ofNat n) c (g.settle s (Int.ofNat n) Action.default c) := by
  have hshift := h.shift_eq_none hg
  have hsize := fun p => h.lt_size (p := p)
  obtain ⟨shift, accept, reductions⟩ := c
  cases reductions with
  | nil =>
    cases accept with
    | true =>
      obtain rfl := hshift rfl
      exact .accept
    | false =>
      cases shift with
      | none => exact .refuse
      | some target => exact .shift target
  | cons p others =>
    -- the first reduction is the one in question, and the others are only reported
    obtain ⟨hwarnings, hcount⟩ := reduceReduceWarnings_eq (s := s) hg hn hsize
    have hp : p < g.productions.size := hsize p List.mem_cons_self
    cases accept with
    | true =>
      obtain rfl := hshift rfl
      simp only [settle, Candidates.base, if_true, hwarnings, hcount,
        acceptReduceMessage_eq hg hn hp]
      exact .acceptReduce p others
    | false =>
      cases shift with
      | none =>
        simp only [settle, Candidates.base, Action.default, Bool.false_eq_true, if_false,
          hwarnings, hcount]
        exact .reduce p others
      | some target =>
        have hprefers := g.prefers_resolveShiftReduce (Int.ofNat n) target p
        simp only [settle, Candidates.base, Bool.false_eq_true, if_false, hwarnings, hcount]
        generalize g.resolveShiftReduce (Int.ofNat n) target p = choice at hprefers ⊢
        obtain ⟨action, byPrecedence⟩ := choice
        cases byPrecedence with
        | true =>
          simp only [if_true, shiftReduceMessage_eq_note hg hn hp hprefers]
          exact .byPrecedence target p others hprefers
        | false =>
          obtain rfl : action = .shift target := hprefers.eq_shift
          simp only [Bool.false_eq_true, if_false, shiftReduceMessage_eq_warning hg hn hp]
          exact .undecided target p others hprefers

/-! ### Terminals without candidates

Most entries are errors, and nothing is said about them.  So it does not matter that only the
terminals with candidates are visited. -/

/-- Where the end is justified, the terminal is among those that are looked at. -/
theorem mem_concerned_of_justified_accept (hg : g.WellFormed) (hs : s < g.automaton.size)
    (h : g.Justified g.automaton (g.lookaheads g.automaton) s t .accept) :
    t ∈ concerned g.automaton (g.completionsOf (g.lookaheads g.automaton) s) s := by
  obtain ⟨symbols, hsymbols⟩ := g.isAutomaton_automaton.exists_stateAfter? hs
  obtain rfl := eq_of_justified_accept hsymbols h
  obtain ⟨rfl, -⟩ := h
  exact (justified_accept hg hsymbols).2

/-- **Where nothing is to be done, nothing is said**: a terminal that is not looked at is
refused. -/
theorem decided_eq_refusal (hg : g.WellFormed) (hs : s < g.automaton.size)
    (ht : t ∉ concerned g.automaton (g.completionsOf (g.lookaheads g.automaton) s) s) :
    g.decided g.automaton (g.lookaheads g.automaton) s t = .refusal := by
  have ha := g.isAutomaton_automaton
  have hcandidates := isCandidates_candidates hg s t
  unfold decided
  generalize g.candidates g.automaton (g.completionsOf (g.lookaheads g.automaton) s) s t = c
    at hcandidates ⊢
  have hshift : c.shift = none := by
    cases htarget : c.shift with
    | none => rfl
    | some target =>
      exact (ht ((mem_concerned ha).2 (.inl ⟨target, hcandidates.shift ▸ htarget⟩))).elim
  have haccept : c.accept = false := Bool.eq_false_iff.2 fun h =>
    ht (mem_concerned_of_justified_accept hg hs
      (justified_accept_iff.2 (hcandidates.accept_iff.1 h)))
  have hreductions : c.reductions = [] := List.eq_nil_iff_forall_not_mem.2 fun p hp => by
    obtain ⟨-, i, hfollows, hcomplete, -⟩ :=
      (justified_reduce_iff hg).2 ((hcandidates.mem_reductions p).1 hp)
    exact ht (mem_concerned_of_follows hg ha (isLookaheads hg) hfollows hcomplete)
  obtain ⟨shift, accept, reductions⟩ := c
  obtain rfl : shift = none := hshift
  obtain rfl : accept = false := haccept
  obtain rfl : reductions = [] := hreductions
  rfl

/-- Each entry is the one that is decided, also for a terminal that is not looked at. -/
theorem entry_eq_decided (hg : g.WellFormed) (hs : s < g.automaton.size) :
    g.entry g.automaton (g.lookaheads g.automaton) s t =
      (g.decided g.automaton (g.lookaheads g.automaton) s t).action := by
  unfold entry
  split
  · rfl
  · next ht =>
    rw [decided_eq_refusal hg hs ht]
    rfl

/-! ### The order of the decisions

The terminals of a state are visited in ascending order, and the states one after the other.  Two
ascending lists with the same members are equal, so the messages come in the order of the tables. -/

/-- The terminals that are looked at are in ascending order. -/
theorem isSorted_concerned (g : Grammar) (completions : List (Nat × TokenSet)) (s : Nat) :
    Sorted.IsSorted TokenSet.before (concerned g.automaton completions s) := by
  have hmoves : Sorted.IsSorted TokenSet.before
      ((g.automaton.moves.getD s []).filterMap fun move => move.1.terminal?) := by
    have hsorted := List.pairwise_map.1 (g.isSorted_moves_automaton s)
    refine hsorted.filterMap _ ?_
    rintro ⟨x, _⟩ ⟨y, _⟩ hbefore t ht u hu
    cases x <;> cases y <;> cases ht <;> cases hu
    exact hbefore
  exact List.foldlRecOn completions _ hmoves fun found hfound e _ =>
    Sorted.isSorted_union TokenSet.order_before hfound e.2

/-- The columns are in ascending order. -/
theorem isSorted_columns (n : Nat) :
    Sorted.IsSorted TokenSet.before ((List.range n).map Int.ofNat) := by
  refine List.pairwise_map.2 (List.pairwise_lt_range.imp ?_)
  exact fun h => decide_eq_true (Int.ofNat_lt.2 h)

/-- What is decided for the terminals that are looked at is what is decided for all of them, but for
those that are refused without a message. -/
theorem filter_decided_concerned (hg : g.WellFormed) (hs : s < g.automaton.size) :
    ((concerned g.automaton (g.completionsOf (g.lookaheads g.automaton) s) s).map
        (g.decided g.automaton (g.lookaheads g.automaton) s)).filter (· ≠ .refusal) =
      ((List.range g.numTerminals).map fun t =>
        g.decided g.automaton (g.lookaheads g.automaton) s (Int.ofNat t)).filter
          (· ≠ .refusal) := by
  have hcolumns : ((List.range g.numTerminals).map fun t =>
      g.decided g.automaton (g.lookaheads g.automaton) s (Int.ofNat t)) =
      ((List.range g.numTerminals).map Int.ofNat).map
        (g.decided g.automaton (g.lookaheads g.automaton) s) := by
    rw [List.map_map]
    rfl
  rw [hcolumns, List.filter_map, List.filter_map]
  congr 1
  -- both lists are ascending, and have the same terminals
  refine Sorted.IsSorted.ext TokenSet.order_before ((g.isSorted_concerned _ s).filter _)
    ((isSorted_columns _).filter _) fun t => ?_
  simp only [List.mem_filter, List.mem_map, List.mem_range]
  refine and_congr_left fun hsaid => ⟨fun ht => ?_, fun _ => ?_⟩
  · obtain ⟨c, hc, rfl⟩ :=
      exists_column_of_concerned hg g.isAutomaton_automaton (isLookaheads hg) ht
    exact ⟨c, hc, rfl⟩
  · by_contra ht
    simp [decided_eq_refusal hg hs ht] at hsaid

/-- What a refusal leaves unchanged does not see the refusals. -/
theorem foldl_filter_refusal {β : Type} {f : β → Decision → β} (hf : ∀ b, f b .refusal = b)
    (decisions : List Decision) (b : β) :
    (decisions.filter (· ≠ .refusal)).foldl f b = decisions.foldl f b := by
  rw [List.foldl_filter]
  congr 1
  funext b d
  by_cases hd : d = .refusal
  · subst hd
    simp [hf]
  · simp [hd]

/-- Refusals are not seen in the log. -/
theorem logOf_filter_refusal (n : Nat) (decisions : List Decision) :
    logOf n (decisions.filter (· ≠ .refusal)) = logOf n decisions := by
  unfold logOf
  rw [List.flatMap_eq_foldl, List.flatMap_eq_foldl, foldl_filter_refusal (List.append_nil ·),
    foldl_filter_refusal fun _ => rfl, foldl_filter_refusal fun _ => rfl]

/-- The messages of all decisions stand in front of the closing note. -/
theorem messages_logOf (n : Nat) (decisions : List Decision) :
    (logOf n decisions).messages = decisions.flatMap Decision.messages ++
      [closingNote n (decisions.map Decision.shiftReduce).sum
        (decisions.map Decision.reduceReduce).sum] := by
  rw [List.sum_eq_foldl, List.sum_eq_foldl, List.foldl_map, List.foldl_map]
  rfl

/-- The log is the one for the decisions for all states and all terminals. -/
theorem log_generate (hg : g.WellFormed) :
    g.generate.log = logOf g.automaton.size (g.inOrder fun s t =>
      g.decided g.automaton (g.lookaheads g.automaton) s (Int.ofNat t)) := by
  obtain ⟨-, -, hdecisions⟩ := settleAll_spec hg g.isAutomaton_automaton (isLookaheads hg)
  show logOf _ (g.settleAll g.automaton (g.lookaheads g.automaton)).decisions.reverse = _
  rw [inOrder, hdecisions, ← logOf_filter_refusal, List.filter_flatMap,
    List.flatMap_congr fun s hs => filter_decided_concerned hg (List.mem_range.1 hs),
    ← List.filter_flatMap, logOf_filter_refusal]

/-! ### Tables and log

The tables and the log are put together for any terminals behind the items, and then for those that
the construction has and for those of the canonical rule. -/

/-- The tables and the log show what has been decided for all states and all terminals: each
decision has its entry and its messages, and the closing note counts the conflicts. -/
structure Reports (g : Grammar) (decision : Nat → Nat → Decision) : Prop where
  action : ∀ s < g.automaton.size, ∀ t < g.numTerminals,
    g.generate.tables.actions.get? s t = some (decision s t).action
  goto : ∀ s < g.automaton.size, ∀ v < g.numNonterminals,
    g.generate.tables.gotos.get? s v = some (g.automaton.target? s (.nonterminal v))
  messages : g.generate.log.messages = (g.inOrder decision).flatMap Decision.messages ++
    [closingNote g.automaton.size ((g.inOrder decision).map Decision.shiftReduce).sum
      ((g.inOrder decision).map Decision.reduceReduce).sum]

/-- The construction reports what has been decided for each entry. -/
theorem reports_decided (hg : g.WellFormed) : g.Reports fun s t =>
    g.decided g.automaton (g.lookaheads g.automaton) s (Int.ofNat t) where
  action := fun s hs t ht => by
    obtain ⟨-, hget, -⟩ := settleAll_spec hg g.isAutomaton_automaton (isLookaheads hg)
    rw [← entry_eq_decided hg hs, ← hget s t hs ht]
    rfl
  goto := fun s hs v hv => get?_gotos_generate hs hv
  messages := by rw [log_generate hg, messages_logOf]

/-- The tables and the log show what terminals behind the items of each state make of all entries.
Nothing else is entered, and nothing else is said but for the closing note. -/
def DecidedBy (g : Grammar) (follows : Nat → Item → TokenId → Prop) : Prop :=
  ∃ decision, g.Reports decision ∧ ∀ s < g.automaton.size, ∀ t < g.numTerminals,
    ∃ c, g.IsCandidates (follows s) s (Int.ofNat t) c ∧
      g.Decides s (Int.ofNat t) c (decision s t)

/-- Only the terminals behind the items of the states matter. -/
theorem DecidedBy.congr {follows follows' : Nat → Item → TokenId → Prop} (h : g.DecidedBy follows)
    (hsame : ∀ s < g.automaton.size, ∀ i t, follows s i t ↔ follows' s i t) :
    g.DecidedBy follows' := by
  obtain ⟨decision, hreports, hdecides⟩ := h
  refine ⟨decision, hreports, fun s hs t ht => ?_⟩
  obtain ⟨c, hcandidates, hdecided⟩ := hdecides s hs t ht
  exact ⟨c, hcandidates.congr (hsame s hs), hdecided⟩

/-- What is decided for each entry, from the terminals that are foreseen for the items. -/
theorem decidedBy_candidates (hg : g.WellFormed) :
    g.DecidedBy fun s => g.Foreseen ((g.lookaheads g.automaton).state s) := by
  refine ⟨_, reports_decided hg, fun s _ t ht => ?_⟩
  have hcandidates := isCandidates_candidates hg s (Int.ofNat t)
  exact ⟨_, hcandidates, hcandidates.decides hg ht⟩

/-- Where all nonterminals are productive, each item of a state is given some terminal: those of the
kernel have lookaheads, for something is valid with them, and each of the others begins in front of
something that can be seen. -/
theorem exists_given_of_productive (hg : g.WellFormed)
    (hproductive : ∀ v, g.Occurs v → g.Productive v) (hs : s < g.automaton.size) {i : Item}
    (hi : i ∈ g.closure (g.automaton.kernel s)) :
    ∃ u, g.Given ((g.lookaheads g.automaton).state s) i u := by
  have ha := g.isAutomaton_automaton
  have hl := isLookaheads hg
  obtain ⟨symbols, hsymbols⟩ := ha.exists_stateAfter? hs
  have hviable : ∀ j ∈ g.closure (g.automaton.kernel s), g.Viable symbols j :=
    fun j hj => (viable_iff ha).2 ⟨s, hsymbols, hj⟩
  obtain ⟨root, hroot, hpath⟩ := mem_closure_iff.1 hi
  clear hi
  induction hpath with
  | refl =>
    obtain ⟨u, hvalid⟩ := (hviable root (mem_closure_of_mem hroot)).exists_valid hproductive
    have hfollow :=
      (hl.mem_follow_iff_expected hg ha hroot).2 ⟨symbols, hsymbols, hvalid.expected hg⟩
    obtain ⟨set, hset, hu⟩ := (hl.mem_follow_iff ha).1 hfollow
    exact ⟨u, .kernel hset hu⟩
  | @tail i j hpath hj ih =>
    obtain ⟨u, hu⟩ := ih
    have hi : i ∈ g.closure (g.automaton.kernel s) := mem_closure_iff.2 ⟨root, hroot, hpath⟩
    obtain ⟨u', hbegins⟩ := exists_begins ((hviable i hi).productive_tail hproductive) u
    exact ⟨u', hu.closure hj hbegins⟩

end Grammar

/-- **The tables and the log of a grammar.**  For each state and each terminal, the entry and the
messages are those for what the state can do with the terminals that are foreseen for its items.
Those that the rule of the canonical construction gives are among them, and no others are where it
gives each item of the closure of the state some terminal.  This is so in all states when all
nonterminals that occur are productive. -/
theorem GrammarDefinition.decidedBy_foreseen {d : GrammarDefinition} {g : Grammar}
    (hd : d.Reachable) (hresolve : d.resolve = .ok g) :
    (g.DecidedBy fun s => g.Foreseen (g.generate.lookaheads.state s)) ∧
      (∀ s i t, g.Given (g.generate.lookaheads.state s) i t →
        g.Foreseen (g.generate.lookaheads.state s) i t) ∧
      (∀ s, (∀ i ∈ g.closure (g.generate.automaton.kernel s),
          ∃ u, g.Given (g.generate.lookaheads.state s) i u) →
        ∀ i t, g.Foreseen (g.generate.lookaheads.state s) i t ↔
          g.Given (g.generate.lookaheads.state s) i t) ∧
      ((∀ v, g.Occurs v → g.Productive v) →
        g.DecidedBy fun s => g.Given (g.generate.lookaheads.state s)) := by
  have hg := d.wellFormed_of_resolve hd hresolve
  rw [Grammar.lookaheads_generate, Grammar.automaton_generate]
  have hover := (Grammar.isLookaheads hg).isOver
  have hgiven : ∀ s, (∀ i ∈ g.closure (g.automaton.kernel s),
      ∃ u, g.Given ((g.lookaheads g.automaton).state s) i u) →
      ∀ i t, g.Foreseen ((g.lookaheads g.automaton).state s) i t ↔
        g.Given ((g.lookaheads g.automaton).state s) i t := by
    intro s hall i t
    rw [← hover.map_fst s] at hall
    exact (Grammar.given_iff_foreseen hg hall).symm
  refine ⟨Grammar.decidedBy_candidates hg, fun s i t => Grammar.Given.foreseen hg, hgiven, ?_⟩
  intro hproductive
  refine (Grammar.decidedBy_candidates hg).congr fun s hs => hgiven s fun i hi => ?_
  exact Grammar.exists_given_of_productive hg hproductive hs hi

/-- Sums whose parts are sums again, with an operator that associates to the left. -/
def ambiguousSums : GrammarDefinition :=
  (((GrammarDefinition.empty.declarePrecedence .left "'+'").2.addProductions "sum"
    "sum '+' sum | part | 'x'").2.addProductions "part" "sum").2

/-- All kinds of conflicts come up with such sums, whose nonterminals are productive.  At the end of
the input the end comes before the reduction of a sum to a part.  Behind a first sum the operator is
shifted, for no precedence decides against it.  Behind a second one the reduction of both sums is
the first of two, and the precedence of the operator decides for it.  There is one message about
each choice, and there are no other messages about the entries. -/
theorem GrammarDefinition.decidedBy_ambiguousSums :
    ∃ g decision, ambiguousSums.resolve = .ok g ∧ (∀ v, g.Occurs v → g.Productive v) ∧
      g.Reports decision ∧
      (∃ c, g.IsCandidates (g.Given (g.generate.lookaheads.state 5)) 5 1 c ∧
        g.Decides 5 1 c (decision 5 1)) ∧
      (decision 2 0).action = .accept ∧ (decision 2 1).action = .shift 4 ∧
      (decision 5 1).action = .reduce 0 ∧
      (g.inOrder decision).flatMap Decision.messages = [
        ⟨.warning, "state 2: accept/reduce conflict on $end, accepting instead of reducing " ++
          "part -> sum"⟩,
        ⟨.warning, "state 2: shift/reduce conflict on '+' with part -> sum, resolved as shift 4"⟩,
        ⟨.warning, "state 5: reduce/reduce conflict on $end, reducing sum -> sum '+' sum " ++
          "instead of part -> sum"⟩,
        ⟨.warning, "state 5: reduce/reduce conflict on '+', reducing sum -> sum '+' sum " ++
          "instead of part -> sum"⟩,
        ⟨.note, "state 5: shift/reduce conflict on '+' with sum -> sum '+' sum, " ++
          "resolved as reduce 0 by precedence"⟩] := by
  have hsums : ambiguousSums.resolve.map (fun g => (g.productions.toList,
      [g.numNonterminals, g.automaton.size, g.numTerminals])) = .ok ([
        ⟨0, [.nonterminal 0, .terminal 1, .nonterminal 0], some ⟨1, .left⟩⟩,
        ⟨0, [.nonterminal 1], none⟩, ⟨0, [.terminal 2], none⟩, ⟨1, [.nonterminal 0], none⟩],
        [2, 6, 3]) := by decide +kernel
  have htables : ambiguousSums.resolve.map (fun g => ([g.generate.tables.actions.get? 2 0,
      g.generate.tables.actions.get? 2 1, g.generate.tables.actions.get? 5 1],
      g.generate.log.messages)) = .ok ([some .accept, some (.shift 4), some (.reduce 0)], [
        ⟨.warning, "state 2: accept/reduce conflict on $end, accepting instead of reducing " ++
          "part -> sum"⟩,
        ⟨.warning, "state 2: shift/reduce conflict on '+' with part -> sum, resolved as shift 4"⟩,
        ⟨.warning, "state 5: reduce/reduce conflict on $end, reducing sum -> sum '+' sum " ++
          "instead of part -> sum"⟩,
        ⟨.warning, "state 5: reduce/reduce conflict on '+', reducing sum -> sum '+' sum " ++
          "instead of part -> sum"⟩,
        ⟨.note, "state 5: shift/reduce conflict on '+' with sum -> sum '+' sum, " ++
          "resolved as reduce 0 by precedence"⟩,
        ⟨.note,
          "LALR(1) tables: 6 states, 1 shift/reduce conflicts, 2 reduce/reduce conflicts"⟩]) := by
    decide +kernel
  have hd : ambiguousSums.Reachable := .productions _ _ (.productions _ _ (.precedence _ _ .empty))
  obtain ⟨g, hresolve, hsums⟩ := exists_of_map_eq_ok hsums
  rw [hresolve] at htables
  simp only [Prod.mk.injEq, List.cons.injEq, and_true] at hsums
  obtain ⟨hproductions, hcount, hsize, hterminals⟩ := hsums
  obtain ⟨hentries, hlog⟩ := Prod.mk.inj (Except.ok.inj htables)
  simp only [List.cons.injEq, and_true] at hentries
  obtain ⟨hend, hfirst, hsecond⟩ := hentries
  have hmem : ∀ p ∈ g.productions.toList, g.Derives [.nonterminal p.lhs] p.rhs :=
    fun p hp => Grammar.derives_of_mem (Array.mem_toList_iff.1 hp)
  rw [hproductions] at hmem
  have hsum : g.Derives [.nonterminal 0] [.terminal 2] := hmem ⟨0, [.terminal 2], none⟩ (by simp)
  have hpart : g.Derives [.nonterminal 1] [.terminal 2] :=
    (hmem ⟨1, [.nonterminal 0], none⟩ (by simp)).trans hsum
  have hproductive : ∀ v, g.Occurs v → g.Productive v := by
    intro v hv
    have hlt := hv.lt_numNonterminals (ambiguousSums.wellFormed_of_resolve hd hresolve)
    rw [hcount] at hlt
    refine ⟨[2], ?_⟩
    match v, hlt with
    | 0, _ => exact hsum
    | 1, _ => exact hpart
  obtain ⟨decision, hreports, hdecides⟩ := (decidedBy_foreseen hd hresolve).2.2.2 hproductive
  have haction : ∀ s < 6, ∀ t < 3,
      g.generate.tables.actions.get? s t = some (decision s t).action :=
    fun s hs t ht => hreports.action s (hsize ▸ hs) t (hterminals ▸ ht)
  refine ⟨g, decision, hresolve, hproductive, hreports, hdecides 5 (by omega) 1 (by omega),
    Option.some.inj ((haction 2 (by decide) 0 (by decide)).symm.trans hend),
    Option.some.inj ((haction 2 (by decide) 1 (by decide)).symm.trans hfirst),
    Option.some.inj ((haction 5 (by decide) 1 (by decide)).symm.trans hsecond), ?_⟩
  -- the last message is the closing note
  have hmessages := congrArg List.dropLast hreports.messages
  rw [List.dropLast_concat, hlog] at hmessages
  exact hmessages.symm

/-- Where the items of a state have no lookaheads, the rule of the canonical construction gives no
terminals in its closure, and would have nothing reduced there.  But what begins behind such an item
is reduced in front of what the rest of the item begins with. -/
theorem GrammarDefinition.not_decidedBy_dangling :
    ∃ g, dangling.resolve = .ok g ∧
      (∀ i t, ¬ g.Given (g.generate.lookaheads.state 2) i t) ∧
      g.generate.automaton.target? 2 (.terminal 3) = none ∧
      g.generate.tables.actions.get? 2 3 = some (.reduce 3) ∧
      ¬ g.DecidedBy fun s => g.Given (g.generate.lookaheads.state s) := by
  have hdangling : dangling.resolve.map (fun g => ([g.automaton.size, g.numTerminals],
      g.generate.lookaheads.state 2)) = .ok ([9, 5], [(⟨2, 1⟩, [])]) := by decide +kernel
  have htables : dangling.resolve.map (fun g => (g.generate.automaton.target? 2 (.terminal 3),
      g.generate.tables.actions.get? 2 3)) = .ok (none, some (.reduce 3)) := by decide +kernel
  obtain ⟨g, hresolve, hdangling⟩ := exists_of_map_eq_ok hdangling
  rw [hresolve] at htables
  simp only [Prod.mk.injEq, List.cons.injEq, and_true] at hdangling
  obtain ⟨⟨hsize, hterminals⟩, hstate⟩ := hdangling
  obtain ⟨htarget, hentry⟩ := Prod.mk.inj (Except.ok.inj htables)
  have hnever : ∀ i t, ¬ g.Given (g.generate.lookaheads.state 2) i t := by
    intro i t h
    induction h with
    | kernel hi ht =>
      rw [hstate] at hi
      obtain ⟨-, rfl⟩ := Prod.mk.inj (List.mem_singleton.1 hi)
      cases ht
    | closure _ _ _ ih => exact ih
  refine ⟨g, hresolve, hnever, htarget, hentry, ?_⟩
  rintro ⟨decision, hreports, hdecides⟩
  obtain ⟨⟨shift, accept, reductions⟩, hcandidates, hdecided⟩ :=
    hdecides 2 (by omega) 3 (by omega)
  -- there is nothing to be done, so the entry would be an error
  obtain rfl : shift = none := hcandidates.shift.trans htarget
  obtain rfl : accept = false := Bool.eq_false_iff.2 fun haccept =>
    absurd (hcandidates.accept_iff.1 haccept).1 (by decide)
  obtain rfl : reductions = [] := List.eq_nil_iff_forall_not_mem.2 fun p hp => by
    obtain ⟨production, -, hgiven⟩ := (hcandidates.mem_reductions p).1 hp
    exact hnever _ _ hgiven
  have haction := hreports.action 2 (by omega) 3 (by omega)
  rw [hentry] at haction
  cases hdecision : decision 2 3 with
  | mk action messages shiftReduce reduceReduce =>
    rw [hdecision] at haction hdecided
    obtain rfl := Option.some.inj haction
    cases hdecided

end FrontEnd
