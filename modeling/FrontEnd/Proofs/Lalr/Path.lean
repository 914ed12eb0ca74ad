import FrontEnd.Proofs.Lalr.Automaton

/-!
# Paths of the automaton

A path from the first state spells a sequence of symbols.  The items of a state tell what its paths
end with: the symbols in front of the dot.  So what an item has read can be taken back from every
path, and where its production begins, there is a move for the left-hand side.

## Main Definitions

* `ItemAutomaton.Path` — states and the symbols between them, the latest ones first

## Main Statements

* `Grammar.IsAutomaton.unwind` — what an item has read can be taken back
* `Grammar.IsAutomaton.exists_goto` — a move for the left-hand side of a production that begins
* `Grammar.IsAutomaton.unwind_accept` — the input is accepted only above the first state

## Design Notes

A path is kept with its latest state first, as the stack of a parser has it.  So reducing takes
states from the front, and the induction that unwinds an item is on the place of its dot.
-/

namespace FrontEnd

/-- A path from the first state, with the symbols that it spells.  The latest ones come first. -/
inductive ItemAutomaton.Path (a : ItemAutomaton) : List Nat → List Symbol → Prop
  | bottom : a.Path [0] []
  | push {s t : Nat} {states : List Nat} {x : Symbol} {symbols : List Symbol} :
    a.Path (s :: states) symbols → a.target? s x = some t → a.Path (t :: s :: states) (x :: symbols)

namespace Grammar

variable {g : Grammar} {a : ItemAutomaton}

/-! ### Items of a state

Small facts about items, their next symbols and their rests, which the proofs about states use
instead of indices. -/

/-- The first item goes on with the start symbol. -/
theorem rhsOf_accept (g : Grammar) : g.rhsOf g.acceptProduction = [.nonterminal g.start] := by
  simp [rhsOf, acceptProduction]

/-- An item that begins has its dot in front. -/
theorem dot_of_successor {i j : Item} (h : j ∈ g.successors i) : j.dot = 0 := by
  obtain ⟨p, production, -, -, rfl⟩ := mem_successors.1 h
  rfl

theorem production_lt_of_successor {i j : Item} (h : j ∈ g.successors i) :
    j.production < g.productions.size := by
  obtain ⟨p, production, hp, -, rfl⟩ := mem_successors.1 h
  exact (Array.getElem?_eq_some_iff.1 hp).choose

/-- A complete item has its dot at the end. -/
theorem dot_eq_of_isComplete {i : Item} (h : i ∈ g.items) (hcomplete : g.isComplete i = true) :
    i.dot = (g.rhsOf i.production).length := by
  have hle := (mem_items.1 h).2
  have hnone : (g.rhsOf i.production)[i.dot]? = none := Option.isNone_iff_eq_none.1 hcomplete
  exact Nat.le_antisymm hle (List.getElem?_eq_none_iff.1 hnone)

/-- The converse. -/
theorem isComplete_of_dot_eq {i : Item} (h : i.dot = (g.rhsOf i.production).length) :
    g.isComplete i = true := by
  unfold isComplete nextSymbol?
  rw [h, List.getElem?_length]
  rfl

/-- All of the first item is still to be read in the beginning. -/
theorem drop_accept (g : Grammar) : (g.rhsOf (Item.start g.acceptProduction).production).drop
    (Item.start g.acceptProduction).dot = [.nonterminal g.start] := g.rhsOf_accept

/-- The augmented production ends behind the start symbol. -/
theorem isComplete_accept (g : Grammar) : g.isComplete ⟨g.acceptProduction, 1⟩ = true :=
  isComplete_of_dot_eq (by rw [g.rhsOf_accept]; rfl)

section Next

variable {i : Item} {x : Symbol} {rest : List Symbol}

/-- The next symbol is the first one of what is still to be read. -/
theorem nextSymbol?_of_drop (h : (g.rhsOf i.production).drop i.dot = x :: rest) :
    g.nextSymbol? i = some x := by
  have hget := congrArg (·[0]?) h
  simpa [nextSymbol?] using hget

/-- The rest stands behind it. -/
theorem tail_of_drop (h : (g.rhsOf i.production).drop i.dot = x :: rest) : g.tail i = rest := by
  rw [tail, ← List.drop_drop, h]
  rfl

/-- What is still to be read is the next symbol and the rest. -/
theorem drop_of_nextSymbol? (h : g.nextSymbol? i = some x) :
    (g.rhsOf i.production).drop i.dot = x :: g.tail i := by
  obtain ⟨hlt, hget⟩ := List.getElem?_eq_some_iff.1 h
  rw [List.drop_eq_getElem_cons hlt, hget, tail]

end Next

namespace IsAutomaton

/-- The closure of a state has items of the grammar. -/
theorem mem_items_of_mem_closure (h : g.IsAutomaton a) {s : Nat} {i : Item}
    (hi : i ∈ g.closure (a.kernel s)) : i ∈ g.items := closure_subset_items (h.mem_items s) hi

theorem kernel_eq_nil {s : Nat} (hs : ¬ s < a.size) : a.kernel s = [] := by
  unfold ItemAutomaton.kernel
  rw [Array.getD_eq_getD_getElem?, Array.getElem?_eq_none (Nat.not_lt.1 hs)]
  rfl

/-- Only the first state has an item whose dot has not moved. -/
theorem eq_zero_of_dot_eq_zero (h : g.IsAutomaton a) {s : Nat} {i : Item} (hi : i ∈ a.kernel s)
    (hdot : i.dot = 0) : s = 0 ∧ i = Item.start g.acceptProduction := by
  by_cases hs : s = 0
  · subst hs
    rw [h.kernel_zero] at hi
    exact ⟨rfl, List.mem_singleton.1 hi⟩
  · by_cases hlt : s < a.size
    · obtain ⟨s', x, -, ht⟩ := h.origin s (Nat.pos_of_ne_zero hs) hlt
      obtain ⟨j, -, -, rfl⟩ := (h.mem_kernel s' x s ht i).1 hi
      cases hdot
    · rw [kernel_eq_nil hlt] at hi
      cases hi

/-- An item of a closure whose dot has moved is an item of the kernel. -/
theorem mem_kernel_of_dot_pos {s : Nat} {i : Item} (hi : i ∈ g.closure (a.kernel s))
    (hdot : 0 < i.dot) : i ∈ a.kernel s := by
  rcases closure_cases hi with hi | ⟨j, -, hj⟩
  · exact hi
  · rw [dot_of_successor hj] at hdot
    cases hdot

/-- No move leads back to the first state. -/
theorem target_ne_zero (h : g.IsAutomaton a) {s t : Nat} {x : Symbol}
    (ht : a.target? s x = some t) : t ≠ 0 := by
  rintro rfl
  have hstart : Item.start g.acceptProduction ∈ a.kernel 0 := by
    rw [h.kernel_zero]
    exact List.mem_singleton_self _
  obtain ⟨i, -, -, heq⟩ := (h.mem_kernel s x 0 ht _).1 hstart
  exact absurd (congrArg Item.dot heq) (Nat.zero_ne_add_one i.dot)

/-- Where a production begins, there is a move for its left-hand side. -/
theorem exists_goto (h : g.IsAutomaton a) {s p : Nat} {production : Production} (hs : s < a.size)
    (hi : Item.start p ∈ g.closure (a.kernel s)) (hp : g.productions[p]? = some production) :
    ∃ t, a.target? s (.nonterminal production.lhs) = some t := by
  have hlt : p < g.productions.size := (Array.getElem?_eq_some_iff.1 hp).choose
  rcases closure_cases hi with hkernel | ⟨j, hj, hsucc⟩
  · have heq := congrArg Item.production (h.eq_zero_of_dot_eq_zero hkernel rfl).2
    exact absurd heq (Nat.ne_of_lt hlt)
  · obtain ⟨q, other, hq, hnext, heq⟩ := mem_successors.1 hsucc
    obtain rfl : p = q := congrArg Item.production heq
    obtain rfl := Option.some.inj (hp.symm.trans hq)
    exact h.exists_target s j _ hs hj hnext

/-! ### Paths

An item that has read something stands in a state behind it, and the states in front of it on a path
have the same item with its dot further in front. -/

/-- A path runs through states of the automaton. -/
theorem lt_size_of_path (h : g.IsAutomaton a) {s : Nat} {states : List Nat}
    {symbols : List Symbol} (hpath : a.Path (s :: states) symbols) : s < a.size := by
  cases hpath with
  | bottom => exact h.size_pos
  | push _ ht => exact (h.target_lt _ _ _ ht).2

/-- **What an item has read can be taken back** from a path: the path ends with the symbols in front
of the dot, and the production begins in the state below them. -/
theorem unwind (h : g.IsAutomaton a) {p d s : Nat} {states : List Nat} {symbols : List Symbol}
    (hpath : a.Path (s :: states) symbols) (hi : ⟨p, d⟩ ∈ g.closure (a.kernel s)) :
    ∃ below rest symbols', (s :: states).drop d = below :: rest ∧
      symbols = ((g.rhsOf p).take d).reverse ++ symbols' ∧ a.Path (below :: rest) symbols' ∧
      Item.start p ∈ g.closure (a.kernel below) := by
  induction d generalizing s states symbols with
  | zero => exact ⟨s, states, symbols, rfl, rfl, hpath, hi⟩
  | succ d ih =>
    have hkernel := mem_kernel_of_dot_pos hi (Nat.succ_pos d)
    cases hpath with
    | bottom =>
      rw [h.kernel_zero] at hkernel
      cases List.mem_singleton.1 hkernel
    | @push s' t states x symbols hpath ht =>
      obtain ⟨i, hi', hnext, heq⟩ := (h.mem_kernel s' x s ht _).1 hkernel
      obtain rfl : i = ⟨p, d⟩ := by
        cases i
        cases heq
        rfl
      obtain ⟨below, rest, symbols', hdrop, rfl, hbelow, hstart⟩ := ih hpath hi'
      refine ⟨below, rest, symbols', hdrop, ?_, hbelow, hstart⟩
      have hx : (g.rhsOf p)[d]? = some x := hnext
      rw [List.take_add_one, hx, List.reverse_append]
      rfl

/-- What a completed item has read is its right-hand side. -/
theorem unwind_complete (h : g.IsAutomaton a) {i : Item} {s : Nat} {states : List Nat}
    {symbols : List Symbol} (hpath : a.Path (s :: states) symbols)
    (hi : i ∈ g.closure (a.kernel s)) (hcomplete : g.isComplete i = true) :
    ∃ below rest symbols',
      (s :: states).drop (g.rhsOf i.production).length = below :: rest ∧
      symbols = (g.rhsOf i.production).reverse ++ symbols' ∧ a.Path (below :: rest) symbols' ∧
      Item.start i.production ∈ g.closure (a.kernel below) := by
  have hdot := dot_eq_of_isComplete (h.mem_items_of_mem_closure hi) hcomplete
  have hunwind := h.unwind hpath (p := i.production) (d := i.dot) hi
  rw [hdot, List.take_length] at hunwind
  exact hunwind

/-- The whole input has been read only above the first state, and it has become the start
symbol. -/
theorem unwind_accept (h : g.IsAutomaton a) {i : Item} {s : Nat} {states : List Nat}
    {symbols : List Symbol} (hpath : a.Path (s :: states) symbols)
    (hi : i ∈ g.closure (a.kernel s)) (hcomplete : g.isComplete i = true)
    (haccept : i.production = g.acceptProduction) : symbols = [.nonterminal g.start] := by
  obtain ⟨below, rest, symbols', -, hsymbols, hbelow, hstart⟩ :=
    h.unwind_complete hpath hi hcomplete
  rw [haccept, rhsOf_accept] at hsymbols
  rw [haccept] at hstart
  have hzero : below = 0 := by
    rcases closure_cases hstart with hkernel | ⟨j, -, hj⟩
    · exact (h.eq_zero_of_dot_eq_zero hkernel rfl).1
    · exact absurd (production_lt_of_successor hj) (Nat.lt_irrefl _)
  subst hzero
  have hnil : symbols' = [] := by
    cases hbelow with
    | bottom => rfl
    | push _ ht => exact absurd rfl (h.target_ne_zero ht)
  rw [hsymbols, hnil]
  rfl

end IsAutomaton

end Grammar

end FrontEnd
