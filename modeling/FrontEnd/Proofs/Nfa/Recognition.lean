import FrontEnd.Proofs.Nfa.Until

/-!
# Parts recognize their languages

What an automaton does with a part that has been added to it, stated about its runs.  The automaton
that was there may be any one: its edges are its own, and a run that begins in the part stays there.

## Main Definitions

* `Nfa.Recognizes` — a construction adds a part whose runs recognize a language
* `Nfa.Unentered` — no edge of the new states leads to a state

## Main Statements

* `Nfa.recognizes_addNode` — the part of an expression recognizes its language, and nothing leads
  back to its entry
* `Nfa.recognizes_addUntil` — the search for an expression ends, and its part recognizes the strings
  that end with the first occurrence

## Design Notes

The entry of the part of an expression is a new state that gets its edges only from the front.  So
it is enough that every later step of the construction adds edges to other states: to the exit of a
part, to a hub, or to the entry of a part that has been added behind.
-/

namespace FrontEnd

namespace Nfa

/-- The construction adds a part to an automaton: the states that were there are the same, the edges
of the new ones lead to new ones, and the runs from the entry that arrive at the exit are those over
the strings of the language. -/
structure Recognizes (nfa : Nfa) (result : Nfa × Fragment) (l : Language UInt8) : Prop where
  keeps : Keeps nfa.size nfa result.1
  closed : result.1.Closed (Set.Ico nfa.size result.1.size)
  start_mem : result.2.start ∈ Set.Ico nfa.size result.1.size
  stop_mem : result.2.stop ∈ Set.Ico nfa.size result.1.size
  targets_stop : (result.1.state result.2.stop).targets = []
  mem_run_iff : ∀ w, (result.1.run result.2.start w).mem result.2.stop = true ↔ w ∈ l

/-- No edge of the states with the numbers from `first` on leads to the state. -/
def Unentered (first : Nat) (nfa : Nfa) (i : Nat) : Prop :=
  ∀ j, first ≤ j → i ∉ (nfa.state j).targets

variable {nfa : Nfa} {l : Language UInt8} {first i : Nat}

/-! ### Runs inside of a part

What is known of the strings from the entry to the exit becomes a statement about runs of the whole
automaton.  The part is closed as long as its exit has no edges, so a run from its entry sees no
other states; and it arrives at the exit by the strings of the part, since no edge leads on from
there. -/

/-- A run from the entry of a part arrives at the exit over the strings of the part. -/
theorem Built.mem_run_iff {f : Fragment} (h : Built first nfa f l) (w : List UInt8) :
    (nfa.run f.start w).mem f.stop = true ↔ w ∈ l := by
  rw [mem_run_iff_of_closed h.closed (fun _ hj => hj.2) h.isPart.start_mem,
    path_iff_mem_wordsTo h.targets_stop, h.isPart.wordsTo_eq]

/-- **A part that has been added recognizes its language.** -/
theorem Adds.recognizes {result : Nfa × Fragment} (h : Adds nfa result l) :
    Recognizes nfa result l where
  keeps := h.keeps
  closed := h.built.closed
  start_mem := h.built.isPart.start_mem
  stop_mem := h.built.isPart.stop_mem
  targets_stop := h.built.targets_stop
  mem_run_iff := h.built.mem_run_iff

/-! ### States that nothing leads to

Nothing may lead back to the entry of an expression, or the edges that are added in front of it
would start it again in the middle of a string.  The entry is the first new state of the
construction.  So each operation is shown to leave it alone: a new state has no edges, and a new
edge leads to another state.  The numbers below `first` belong to what was there before, and nothing
is said about them. -/

/-- A new state has no edges yet, so nothing leads to any state. -/
theorem unentered_size (nfa : Nfa) (i : Nat) : Unentered nfa.size nfa i := by
  intro j hj
  rw [state_of_size_le hj, State.targets_bare]
  exact List.not_mem_nil

/-- A new state has no edges. -/
theorem Unentered.addState (h : Unentered first nfa i) : Unentered first nfa.addState.1 i := by
  simpa [Unentered] using h

/-- A silent edge to another state leads elsewhere. -/
theorem Unentered.addSilent (h : Unentered first nfa i) {source target : Nat} (hne : i ≠ target) :
    Unentered first (nfa.addSilent source target) i := by
  intro j hj
  have hi := h j hj
  rw [Nfa.addSilent, state_modify]
  split
  · simpa [State.targets, hne] using hi
  · exact hi

/-- An edge with bytes to another state does not lead to the entry. -/
theorem Unentered.addMove (h : Unentered first nfa i) {source target : Nat} {s : ByteSet}
    (hne : i ≠ target) : Unentered first (nfa.addMove source s target) i := by
  intro j hj
  have hi := h j hj
  rw [Nfa.addMove, state_modify]
  split
  · simpa [State.targets, hne] using hi
  · exact hi

/-- A part that is added behind a state does not lead to it. -/
theorem Unentered.adds {result : Nfa × Fragment} (h : Unentered first nfa i) (hi : i < nfa.size)
    (hadds : Adds nfa result l) : Unentered first result.1 i := by
  intro j hj hmem
  by_cases hlt : j < nfa.size
  · rw [hadds.keeps.state_eq j hlt] at hmem
    exact h j hj hmem
  · by_cases hsize : j < result.1.size
    · exact absurd (hadds.built.closed j ⟨not_lt.1 hlt, hsize⟩ i hmem).1 (not_le.2 hi)
    · rw [state_of_size_le (not_lt.1 hsize)] at hmem
      cases hmem

section Repetition

variable {add : Nfa → Nfa × Fragment}

/-- Copies of an item in a row: each copy is added behind the state, and the edge to it leads to its
own entry, which is newer. -/
theorem Unentered.addCopies (hadd : ∀ nfa, Adds nfa (add nfa) l) {n last : Nat}
    (h : Unentered first nfa i) (hi : i < nfa.size) :
    Unentered first (addCopies add n nfa last).1 i := by
  induction n generalizing nfa last with
  | zero => exact h
  | succ n ih =>
    have hadds := hadd nfa
    have hle := hadds.keeps.size_le
    have hstart := hadds.built.first_le_start
    exact ih ((h.adds hi hadds).addSilent (by omega)) (by simpa using lt_of_lt_of_le hi hle)

/-- Copies that can be left out: each of them gets a silent edge to the common exit, too, and the
exit is another state. -/
theorem Unentered.addOptionalCopies (hadd : ∀ nfa, Adds nfa (add nfa) l) {n last stop : Nat}
    (h : Unentered first nfa i) (hi : i < nfa.size) (hstop : i ≠ stop) :
    Unentered first (addOptionalCopies add stop n nfa last).1 i := by
  induction n generalizing nfa last with
  | zero => exact h
  | succ n ih =>
    have hadds := hadd nfa
    have hle := hadds.keeps.size_le
    have hstart := hadds.built.first_le_start
    exact ih (((h.adds hi hadds).addSilent (by omega)).addSilent hstop)
      (by simpa using lt_of_lt_of_le hi hle)

/-- Nothing leads to the entry of a repetition.  Loops go back to a hub that is behind the entry. -/
theorem unentered_addRepeated (hadd : ∀ nfa, Adds nfa (add nfa) l) (min : Nat) (max : Option Nat)
    (nfa : Nfa) :
    Unentered nfa.size (addRepeated add min max nfa).1 (addRepeated add min max nfa).2.start := by
  have hrow : Unentered nfa.size (addCopies add min nfa.addState.1 nfa.size).1 nfa.size :=
    (unentered_size nfa nfa.size).addState.addCopies hadd (by simp)
  have hsize := (built_addCopies hadd min (built_addState nfa)).2.size_le
  rw [addRepeated]
  dsimp only [addState_snd]
  generalize Nfa.addCopies add min nfa.addState.1 nfa.size = result at hrow hsize ⊢
  obtain ⟨row, last⟩ := result
  rw [size_addState] at hsize
  dsimp only at hrow hsize ⊢
  -- everything behind the row has a larger number than the entry
  cases max with
  | none =>
    have hadds := hadd row.addState.1.addState.1
    have hstart := hadds.built.first_le_start
    simp only [size_addState] at hstart ⊢
    refine ((((hrow.addState.addState.adds ?_ hadds).addSilent ?_).addSilent ?_).addSilent
      ?_).addSilent ?_
    · simp only [size_addState]
      omega
    all_goals omega
  | some max =>
    refine (hrow.addState.addOptionalCopies hadd ?_ ?_).addSilent ?_
    · rw [size_addState]
      omega
    all_goals omega

end Repetition

/-- Items in a row, each of them behind the one before it. -/
theorem Unentered.addBehind {f : Fragment} (items : List Node) (h : Unentered first nfa i)
    (hi : i < nfa.size) : Unentered first (addBehind items f nfa).1 i := by
  induction items generalizing nfa f with
  | nil => exact h
  | cons item items ih =>
    have hadds := adds_addNode nfa item
    have hle := hadds.keeps.size_le
    have hstart := hadds.built.first_le_start
    rw [Nfa.addBehind]
    exact ih ((h.adds hi hadds).addSilent (by omega)) (by simpa using lt_of_lt_of_le hi hle)

/-- Items that are added behind a part do not change its entry. -/
theorem start_addBehind (items : List Node) (f : Fragment) (nfa : Nfa) :
    (addBehind items f nfa).2.start = f.start := by
  induction items generalizing nfa f with
  | nil => rfl
  | cons item items ih =>
    rw [Nfa.addBehind]
    exact ih _ _

/-- The choices of an alternation lead to their own entries and from their own exits. -/
theorem Unentered.addChoices {around : Fragment} (items : List Node) (h : Unentered first nfa i)
    (hi : i < nfa.size) (hne : i ≠ around.stop) :
    Unentered first (addChoices items around nfa) i := by
  induction items generalizing nfa with
  | nil => exact h
  | cons item items ih =>
    have hadds := adds_addNode nfa item
    have hle := hadds.keeps.size_le
    have hstart := hadds.built.first_le_start
    rw [Nfa.addChoices]
    exact ih (((h.adds hi hadds).addSilent (by omega)).addSilent hne)
      (by simpa using lt_of_lt_of_le hi hle)

/-- Nothing leads to the entry of the empty expression. -/
theorem unentered_addEmpty (nfa : Nfa) :
    Unentered nfa.size nfa.addEmpty.1 nfa.addEmpty.2.start := by
  rw [addEmpty_eq]
  exact (unentered_size nfa nfa.size).addState.addState.addSilent (by simp)

/-- Nothing leads to the entry of a set. -/
theorem unentered_addSet (nfa : Nfa) (s : ByteSet) :
    Unentered nfa.size (nfa.addSet s).1 (nfa.addSet s).2.start := by
  rw [addSet_eq]
  exact (unentered_size nfa nfa.size).addState.addState.addMove (by simp)

/-- Nothing inside of the part of an expression leads back to its entry. -/
theorem unentered_addNode (nfa : Nfa) (node : Node) :
    Unentered nfa.size (addNode node nfa).1 (addNode node nfa).2.start := by
  cases node with
  | empty =>
    rw [addNode]
    exact unentered_addEmpty nfa
  | set s =>
    rw [addNode]
    exact unentered_addSet nfa s
  | concat items =>
    cases items with
    | nil =>
      rw [addNode]
      exact unentered_addEmpty nfa
    | cons item items =>
      -- the entry of a row is that of its first part
      rw [addNode]
      dsimp only
      rw [start_addBehind]
      exact (unentered_addNode nfa item).addBehind items (adds_addNode nfa item).built.start_lt
  | alt items =>
    rw [addNode]
    have hlt : nfa.size < nfa.addState.1.addState.1.size := by
      rw [size_addState, size_addState]
      omega
    exact (unentered_size nfa nfa.size).addState.addState.addChoices items hlt (by simp)
  | repeated node min max =>
    rw [addNode]
    exact unentered_addRepeated (fun nfa => adds_addNode nfa node) min max nfa

/-! ### Expressions and first occurrences

Both constructions add a part for their language; what is left is to say this of runs, and that the
search for first occurrences has ended by itself. -/

/-- **The part of an expression recognizes its language.**  Whatever the automaton is, its states
stay as they are, no edge joins them with the new states, nothing leads out of the exit or back to
the entry, and the runs from the entry that arrive at the exit are those over the strings that the
expression matches. -/
theorem recognizes_addNode (nfa : Nfa) (node : Node) :
    Recognizes nfa (addNode node nfa) node.language ∧
      Unentered nfa.size (addNode node nfa).1 (addNode node nfa).2.start :=
  ⟨(adds_addNode nfa node).recognizes, unentered_addNode nfa node⟩

/-- An upper bound below the lower one leaves exactly as many copies as the lower one says. -/
example :
    let (nfa, f) := addNode (.repeated (.set (.range 0x61 0x62)) 2 (some 1)) Nfa.empty
    ([[0x61], [0x61, 0x62], [0x61, 0x62, 0x61]].map fun w => (nfa.run f.start w).mem f.stop) =
      [false, true, false] := by decide +kernel

/-- **The search for an expression ends**, and its part recognizes the strings that end with the
first occurrence of the expression: only the empty one when the expression matches that. -/
theorem recognizes_addUntil (nfa : Nfa) (node : Node) :
    UntilEnds nfa node (addUntil nfa node).1 ∧
      Recognizes nfa (addUntil nfa node) (untilFirst node.language) ∧
      (node.nullable = true → ∀ w,
        ((addUntil nfa node).1.run (addUntil nfa node).2.start w).mem (addUntil nfa node).2.stop =
          true ↔ w = []) := by
  obtain ⟨hends, hadds⟩ := untilEnds_and_adds_addUntil nfa node
  refine ⟨hends, hadds.recognizes, fun hnullable w => ?_⟩
  rw [hadds.recognizes.mem_run_iff, untilFirst_of_nil_mem (node.nullable_iff.1 hnullable),
    Language.mem_one]

end Nfa

end FrontEnd
