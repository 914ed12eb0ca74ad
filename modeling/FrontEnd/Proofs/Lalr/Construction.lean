import FrontEnd.Proofs.Lalr.Canonical

/-!
# The construction of the automaton

The automaton is built by two loops that run until nothing is left: one takes the states one after
the other, and for each of them another one takes the items of its closure.  Both end.  What they
build has one state for each set of items that is viable after some symbols.

## Main Definitions

* `Grammar.movesOf` — the kernels that follow the items of a closure
* `Grammar.Builds` — the construction as a loop without a bound

## Main Statements

* `Grammar.exists_finishes_closure` — the items of a closure are found without a bound
* `Grammar.exists_builds_automaton` — so is the automaton
* `Grammar.automaton_exact` — the kernels are sorted and different, the states are reached, and
  their closures are the viable items

## Design Notes

The bounds of the construction are left out of `Builds` altogether: the closure of a state is what
its own loop ends with.
-/

namespace FrontEnd

namespace Grammar

variable {g : Grammar} {a : ItemAutomaton}

/-! ### Loops without a bound

The loops of the construction have bounds, so that they can be run.  They are not needed to say what
is built: each loop comes to its end by itself. -/

/-- The kernels that follow the items of a closure, in the order of the symbols. -/
def movesOf (g : Grammar) (items : List Item) : List (Symbol × List Item) :=
  items.foldl
    (fun found i =>
      match g.nextSymbol? i with
      | some s => addToKernel s i.advance found
      | none => found)
    []

/-- The kernels behind a state are made from its closure. -/
theorem moves_eq_movesOf (g : Grammar) (kernel : List Item) :
    g.moves kernel = g.movesOf (g.closure kernel) := rfl

/-- States get their moves one after the other until all of them have, however many there are: how
many, and the automaton at the end. -/
inductive Builds (g : Grammar) : Nat → ItemAutomaton → ItemAutomaton → Prop
  | done {a : ItemAutomaton} : a.kernels[a.moves.size]? = none → Builds g 0 a a
  | state {n m : Nat} {a last : ItemAutomaton} {kernel items : List Item} :
    a.kernels[a.moves.size]? = some kernel →
      Worklist.Finishes (Worklist.enter g.successors) m kernel [] items →
      Builds g n ⟨(numberKernels a.kernels (g.movesOf items)).1,
        a.moves.push (numberKernels a.kernels (g.movesOf items)).2⟩ last →
      Builds g (n + 1) a last

/-- The items of a closure are found without a bound. -/
theorem exists_finishes_closure (g : Grammar) (kernel : List Item) :
    ∃ n, n ≤ kernel.length + g.productions.size ∧
      Worklist.Finishes (Worklist.enter g.successors) n kernel [] (g.closure kernel) := by
  obtain ⟨n, hn, hfinishes⟩ := Worklist.exists_finishes_reach (g.closureNodes kernel)
    (fun _ => mem_closureNodes) (card_closureNodes_le g kernel)
  exact ⟨n, hn.trans (card_closureNodes_le g kernel), hfinishes⟩

/-- The states that have no moves yet get them, one in each round. -/
theorem Constructed.exists_builds (bound : Nat) (h : g.Constructed a)
    (hbound : 2 ^ g.numItems ≤ a.moves.size + bound) :
    ∃ n, a.moves.size + n = (g.extendAutomaton bound a.moves.size a).moves.size ∧
      g.Builds n a (g.extendAutomaton bound a.moves.size a) := by
  induction bound generalizing a with
  | zero =>
    have hnone : a.kernels[a.moves.size]? = none :=
      Array.getElem?_eq_none (h.size_le_two_pow.trans hbound)
    exact ⟨0, rfl, .done hnone⟩
  | succ bound ih =>
    unfold extendAutomaton
    split
    · next hnone => exact ⟨0, rfl, .done hnone⟩
    · next kernel hkernel =>
      obtain ⟨n, hn, hbuilds⟩ := ih (h.step hkernel) (by rw [Array.size_push]; omega)
      obtain ⟨m, -, hfinishes⟩ := g.exists_finishes_closure kernel
      rw [Array.size_push] at hn hbuilds
      rw [moves_eq_movesOf] at hbuilds
      exact ⟨n + 1, by rw [← hn]; omega, .state hkernel hfinishes hbuilds⟩

/-- **The construction ends**, with one round for each state. -/
theorem exists_builds_automaton (g : Grammar) :
    g.Builds g.automaton.size ⟨#[[Item.start g.acceptProduction]], #[]⟩ g.automaton := by
  obtain ⟨n, hn, hbuilds⟩ := g.constructed_start.exists_builds (1 <<< g.numItems)
    (by simp [Nat.one_shiftLeft])
  have hrounds : n = g.automaton.size := by
    have hmoves : 0 + n = g.automaton.moves.size := hn
    rw [← Nat.zero_add n, hmoves, g.constructed_automaton.2, ItemAutomaton.size]
  rw [← hrounds]
  exact hbuilds

/-! ### States

What is viable after some symbols is the closure of one state, and each state is reached by
symbols. -/

/-- A state has moved over the symbol in front of it, so its kernel is not empty. -/
theorem IsAutomaton.kernel_ne_nil (h : g.IsAutomaton a) {s : Nat} (hs : s < a.size) :
    a.kernel s ≠ [] := by
  rcases Nat.eq_zero_or_pos s with rfl | hpos
  · rw [h.kernel_zero]
    exact List.cons_ne_nil _ _
  · obtain ⟨s', x, -, ht⟩ := h.origin s hpos hs
    obtain ⟨i, hi, hnext⟩ := h.exists_next s' x s ht
    exact List.ne_nil_of_mem ((h.mem_kernel s' x s ht _).2 ⟨i, hi, hnext, rfl⟩)

/-- Symbols lead to a state when some item is viable after them. -/
theorem IsAutomaton.exists_stateAfter?_iff (h : g.IsAutomaton a) {symbols : List Symbol} :
    (∃ s, a.stateAfter? symbols = some s) ↔ ∃ i, g.Viable symbols i := by
  constructor
  · rintro ⟨s, hs⟩
    have hne := h.kernel_ne_nil (h.lt_size_of_stateAfter? hs)
    obtain ⟨i, hi⟩ := List.exists_mem_of_ne_nil _ hne
    exact ⟨i, (viable_iff h).2 ⟨s, hs, mem_closure_of_mem hi⟩⟩
  · rintro ⟨i, hi⟩
    obtain ⟨s, hs, -⟩ := (viable_iff h).1 hi
    exact ⟨s, hs⟩

/-- In the state that symbols lead to, the closure holds the items that are viable after them. -/
theorem IsAutomaton.mem_closure_iff_viable (h : g.IsAutomaton a) {symbols : List Symbol} {s : Nat}
    (hs : a.stateAfter? symbols = some s) {i : Item} :
    i ∈ g.closure (a.kernel s) ↔ g.Viable symbols i := by
  rw [viable_iff h]
  constructor
  · exact fun hi => ⟨s, hs, hi⟩
  · rintro ⟨s', hs', hi⟩
    obtain rfl := Option.some.inj (hs.symm.trans hs')
    exact hi

/-- **The automaton of a grammar.**  Its construction ends without a bound: one round for each
state, and there are at most as many as sets of items.  The kernels are in ascending order, not
empty, and no two of them are equal; every state is reached from the first one.  Symbols lead to a
state just when some item is viable after them, and the closure of its kernel holds exactly those
items. -/
theorem automaton_exact (g : Grammar) :
    (g.Builds g.automaton.size ⟨#[[Item.start g.acceptProduction]], #[]⟩ g.automaton ∧
      g.automaton.size ≤ 2 ^ g.numItems) ∧
    (∀ kernel ∈ g.automaton.kernels, Sorted.IsSorted Item.before kernel ∧ kernel ≠ []) ∧
    g.automaton.kernels.toList.Nodup ∧
    (∀ s < g.automaton.size, ∃ symbols, g.automaton.stateAfter? symbols = some s) ∧
    ∀ symbols,
      ((∃ s, g.automaton.stateAfter? symbols = some s) ↔ ∃ i, g.Viable symbols i) ∧
      ∀ s, g.automaton.stateAfter? symbols = some s →
        ∀ i, i ∈ g.closure (g.automaton.kernel s) ↔ g.Viable symbols i := by
  obtain ⟨hconstructed, -⟩ := g.constructed_automaton
  have ha := g.isAutomaton_automaton
  refine ⟨⟨g.exists_builds_automaton, hconstructed.size_le_two_pow⟩, fun kernel hkernel => ?_,
    hconstructed.nodup, fun s hs => ha.exists_stateAfter? hs,
    fun symbols => ⟨ha.exists_stateAfter?_iff, fun s hs i => ha.mem_closure_iff_viable hs⟩⟩
  refine ⟨(hconstructed.isKernel kernel hkernel).1, ?_⟩
  obtain ⟨s, hs⟩ := Array.mem_iff_getElem?.1 hkernel
  rw [← kernel_eq_of_getElem? hs]
  exact ha.kernel_ne_nil (Array.getElem?_eq_some_iff.1 hs).choose

/-- Behind a place, the assignment can go on and the place is a value; no second place can stand
there. -/
theorem automaton_exact_assignments :
    ∃ g, assignments.resolve = .ok g ∧
      (∀ i, i ∈ g.closure [⟨0, 1⟩, ⟨4, 1⟩] ↔ g.Viable [.nonterminal 1] i) ∧
      ¬ ∃ i, g.Viable [.nonterminal 1, .nonterminal 1] i := by
  have hassignments : (match assignments.resolve with
      | .ok g => some (g.automaton.stateAfter? [.nonterminal 1], g.automaton.kernel 4,
          g.automaton.stateAfter? [.nonterminal 1, .nonterminal 1])
      | .error _ => none) = some (some 4, [⟨0, 1⟩, ⟨4, 1⟩], none) := by
    decide +kernel
  split at hassignments
  · next g hresolve =>
    simp only [Option.some.injEq, Prod.mk.injEq] at hassignments
    obtain ⟨hplace, hkernel, hplaces⟩ := hassignments
    obtain ⟨-, -, -, -, hviable⟩ := automaton_exact g
    have hclosure := (hviable _).2 4 hplace
    rw [hkernel] at hclosure
    refine ⟨g, hresolve, hclosure, fun h => ?_⟩
    obtain ⟨s, hs⟩ := (hviable _).1.2 h
    cases hplaces.symm.trans hs
  · cases hassignments

end Grammar

end FrontEnd
