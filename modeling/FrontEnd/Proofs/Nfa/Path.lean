import FrontEnd.Nfa.Basic
import FrontEnd.Proofs.ByteSet.Groups
import FrontEnd.Proofs.Worklist
import Mathlib.Algebra.Group.Nat.Defs

/-!
# Paths of an automaton

The behaviour of a nondeterministic automaton as a relation: a path leads from one state to another
and reads a byte string.  The sets of states that the automaton computes are exactly those that
paths lead to.

## Main Definitions

* `Nfa.Path` — a path from a state to a state over a byte string
* `Nfa.WellFormed` — all edges lead to states of the automaton
* `Nfa.Closed` — no edge leads out of a region of states
* `StateSet.Within` — all states of a set are below a bound

## Main Statements

* `Nfa.mem_closure_iff`, `Nfa.mem_stepFrom_iff` — the sets behind silent edges and behind a byte
* `Nfa.mem_run_iff` — a run reaches the states that the paths over its bytes lead to
* `Nfa.mem_run_iff_of_closed` — the same for a run that begins in a closed region

## Design Notes

A part of an automaton is all that its runs see.  So the sets are described for a closed region of
states first, whatever edges there are elsewhere; all states of a well-formed automaton are such a
region.
-/

namespace FrontEnd

/-! ### Bounded sets of states

There are as many sets of states below a bound as numbers with so many bits.  All loops over such
sets end for this reason. -/

/-- All states of the set are below the bound. -/
def StateSet.Within (n : Nat) (s : StateSet) : Prop := ∀ i, s.mem i = true → i < n

theorem StateSet.Within.union {n : Nat} {s t : StateSet} (hs : s.Within n) (ht : t.Within n) :
    (s.union t).Within n := by
  intro i hi
  rw [mem_union, Bool.or_eq_true] at hi
  exact hi.elim (hs i) (ht i)

/-- A set is known by its number. -/
theorem StateSet.bits_injective : Function.Injective StateSet.bits := by
  rintro ⟨a⟩ ⟨b⟩ h
  exact congrArg StateSet.mk h

/-- A set is empty when no bit of its number is set. -/
theorem StateSet.isEmpty_iff {s : StateSet} : s.isEmpty = true ↔ ∀ i, s.mem i = false := by
  rw [isEmpty, beq_iff_eq]
  constructor
  · intro h i
    simp [mem, h]
  · intro h
    exact Nat.eq_of_testBit_eq fun i => by simpa [mem] using h i

/-- There are at most `2 ^ n` different sets of states below `n`. -/
theorem StateSet.length_le_two_pow {n : Nat} {sets : List StateSet} (hnodup : sets.Nodup)
    (hwithin : ∀ s ∈ sets, s.Within n) : sets.length ≤ 2 ^ n := by
  have hsub : sets.map StateSet.bits ⊆ List.range (2 ^ n) := by
    intro x hx
    obtain ⟨s, hs, rfl⟩ := List.mem_map.1 hx
    refine List.mem_range.2 (Nat.lt_pow_two_of_testBit _ fun i hi => ?_)
    by_contra hmem
    exact absurd (hwithin s hs i (Bool.not_eq_false _ ▸ hmem)) (not_lt.2 hi)
  simpa using (hnodup.map StateSet.bits_injective).subperm hsub |>.length_le

namespace Nfa

/-- Targets of all the edges of a state. -/
def State.targets (q : State) : List Nat := q.silent ++ q.moves.map Prod.snd

/-- All edges lead to states of the automaton. -/
def WellFormed (nfa : Nfa) : Prop := ∀ i, ∀ j ∈ (nfa.state i).targets, j < nfa.size

/-- No edge leads out of the region. -/
def Closed (nfa : Nfa) (region : Set Nat) : Prop :=
  ∀ i ∈ region, ∀ j ∈ (nfa.state i).targets, j ∈ region

/-- A path from a state to a state, which reads a byte string. -/
inductive Path (nfa : Nfa) : Nat → List UInt8 → Nat → Prop
  | refl (i : Nat) : Path nfa i [] i
  | silent {i j k : Nat} {w : List UInt8} :
    j ∈ (nfa.state i).silent → Path nfa j w k → Path nfa i w k
  | move {i j k : Nat} {b : UInt8} {w : List UInt8} {s : ByteSet} :
    (s, j) ∈ (nfa.state i).moves → s.contains b = true → Path nfa j w k → Path nfa i (b :: w) k

/-! ### States after each operation

Each operation changes one state and leaves the others; it is described by these two facts, and by
the number of states. -/

/-- A silent edge leads to a target. -/
theorem State.mem_targets_of_silent {q : State} {j : Nat} (h : j ∈ q.silent) : j ∈ q.targets :=
  List.mem_append_left _ h

/-- An edge with bytes leads to a target, whatever the bytes are. -/
theorem State.mem_targets_of_move {q : State} {s : ByteSet} {j : Nat} (h : (s, j) ∈ q.moves) :
    j ∈ q.targets := List.mem_append_right _ (List.mem_map.2 ⟨(s, j), h, rfl⟩)

@[simp] theorem State.targets_bare : State.bare.targets = [] := rfl

/-- Numbers beyond the last state stand for bare states. -/
theorem state_of_size_le {nfa : Nfa} {i : Nat} (h : nfa.size ≤ i) : nfa.state i = State.bare := by
  simp [state, Array.getElem?_eq_none (show nfa.states.size ≤ i from h)]

@[simp] theorem size_addState (nfa : Nfa) : nfa.addState.1.size = nfa.size + 1 := by
  simp [addState, size]

@[simp] theorem addState_snd (nfa : Nfa) : nfa.addState.2 = nfa.size := rfl

@[simp] theorem state_addState (nfa : Nfa) (i : Nat) : nfa.addState.1.state i = nfa.state i := by
  simp only [addState, state, Array.getD_eq_getD_getElem?, Array.getElem?_push]
  split
  next h => simp [h]
  next => rfl

@[simp] theorem size_addSilent (nfa : Nfa) (i j : Nat) : (nfa.addSilent i j).size = nfa.size := by
  simp [addSilent, size]

@[simp] theorem size_addMove (nfa : Nfa) (i : Nat) (s : ByteSet) (j : Nat) :
    (nfa.addMove i s j).size = nfa.size := by
  simp [addMove, size]

@[simp] theorem size_setAccept (nfa : Nfa) (i : Nat) (a : Accept) :
    (nfa.setAccept i a).size = nfa.size := by
  simp [setAccept, size]

/-- One state is changed, if it is there, and the others stay as they are. -/
theorem state_modify (nfa : Nfa) (f : State → State) {i j : Nat} :
    (⟨nfa.states.modify i f⟩ : Nfa).state j =
      if j = i ∧ i < nfa.size then f (nfa.state j) else nfa.state j := by
  simp only [state, size, Array.getD_eq_getD_getElem?, Array.getElem?_modify]
  by_cases hij : i = j
  · subst hij
    by_cases hlt : i < nfa.states.size
    · simp [hlt]
    · simp [hlt]
  · simp [hij, Ne.symm hij]

/-- The source of a new silent edge has it behind the others. -/
theorem state_addSilent_self {nfa : Nfa} {i j : Nat} (h : i < nfa.size) :
    (nfa.addSilent i j).state i =
      { nfa.state i with silent := (nfa.state i).silent ++ [j] } := by
  simp [addSilent, state_modify, h]

theorem state_addSilent_of_ne {nfa : Nfa} {i j k : Nat} (h : k ≠ i) :
    (nfa.addSilent i j).state k = nfa.state k := by
  simp [addSilent, state_modify, h]

/-- The source of a new edge with bytes has it behind the others. -/
theorem state_addMove_self {nfa : Nfa} {i j : Nat} {s : ByteSet} (h : i < nfa.size) :
    (nfa.addMove i s j).state i =
      { nfa.state i with moves := (nfa.state i).moves ++ [(s, j)] } := by
  simp [addMove, state_modify, h]

theorem state_addMove_of_ne {nfa : Nfa} {i j k : Nat} {s : ByteSet} (h : k ≠ i) :
    (nfa.addMove i s j).state k = nfa.state k := by
  simp [addMove, state_modify, h]

/-- A mark is put on its state. -/
theorem state_setAccept_self {nfa : Nfa} {i : Nat} {a : Accept} (h : i < nfa.size) :
    (nfa.setAccept i a).state i = { nfa.state i with accept := some a } := by
  simp [setAccept, state_modify, h]

theorem state_setAccept_of_ne {nfa : Nfa} {i k : Nat} {a : Accept} (h : k ≠ i) :
    (nfa.setAccept i a).state k = nfa.state k := by
  simp [setAccept, state_modify, h]

/-! ### Paths

A path over a string can be cut where the string is cut, and silent edges can stand at either end of
each piece. -/

variable {nfa : Nfa}

theorem Path.trans {i j k : Nat} {u v : List UInt8} (h : nfa.Path i u j) (h' : nfa.Path j v k) :
    nfa.Path i (u ++ v) k := by
  induction h with
  | refl => exact h'
  | silent hj _ ih => exact .silent hj (ih h')
  | move hj hb _ ih => exact .move hj hb (ih h')

/-- The first byte of a path is read on one of its moves, behind some silent edges. -/
theorem path_cons_iff {i k : Nat} {b : UInt8} {w : List UInt8} :
    nfa.Path i (b :: w) k ↔ ∃ p s q, nfa.Path i [] p ∧ (s, q) ∈ (nfa.state p).moves ∧
      s.contains b = true ∧ nfa.Path q w k := by
  constructor
  · intro h
    generalize hv : b :: w = v at h
    induction h with
    | refl => cases hv
    | silent hj _ ih =>
      obtain ⟨p, s, q, hp, hrest⟩ := ih hv
      exact ⟨p, s, q, .silent hj hp, hrest⟩
    | move hj hb hpath _ =>
      cases hv
      exact ⟨_, _, _, .refl _, hj, hb, hpath⟩
  · rintro ⟨p, s, q, hp, hmove, hb, hq⟩
    exact hp.trans (.move hmove hb hq)

/-- A path over two strings passes through a state between them. -/
theorem path_append_iff {i k : Nat} {u v : List UInt8} :
    nfa.Path i (u ++ v) k ↔ ∃ j, nfa.Path i u j ∧ nfa.Path j v k := by
  constructor
  · intro h
    induction u generalizing i with
    | nil => exact ⟨i, .refl i, h⟩
    | cons b u ih =>
      obtain ⟨p, s, q, hp, hmove, hb, hq⟩ := path_cons_iff.1 h
      obtain ⟨j, hj, hk⟩ := ih hq
      exact ⟨j, path_cons_iff.2 ⟨p, s, q, hp, hmove, hb, hj⟩, hk⟩
  · rintro ⟨j, hj, hk⟩
    exact hj.trans hk

/-- Over the empty string only silent edges are followed. -/
theorem path_nil_iff {i k : Nat} :
    nfa.Path i [] k ↔ Relation.ReflTransGen (fun a b => b ∈ (nfa.state a).silent) i k := by
  constructor
  · intro h
    generalize hv : ([] : List UInt8) = v at h
    induction h with
    | refl => exact .refl
    | silent hj _ ih => exact .head hj (ih hv)
    | move => cases hv
  · intro h
    induction h using Relation.ReflTransGen.head_induction_on with
    | refl => exact .refl _
    | head hj _ ih => exact .silent hj ih

/-- A path that starts in a closed region ends there. -/
theorem Path.mem_of_closed {region : Set Nat} (hclosed : nfa.Closed region) {i k : Nat}
    {w : List UInt8} (h : nfa.Path i w k) (hi : i ∈ region) : k ∈ region := by
  induction h with
  | refl => exact hi
  | silent hj _ ih => exact ih (hclosed _ hi _ (State.mem_targets_of_silent hj))
  | move hj _ _ ih => exact ih (hclosed _ hi _ (State.mem_targets_of_move hj))

/-- The states of a well-formed automaton are a closed region. -/
theorem WellFormed.closed (hwf : nfa.WellFormed) : nfa.Closed (Set.Iio nfa.size) :=
  fun i _ j hj => hwf i j hj

/-! ### Sets of states

The closure is a search along silent edges, so it has what silent paths lead to.  A step follows one
byte and takes the closure behind it, and a run takes step after step.  All of this is proved for a
run inside of a closed region, and the well-formed automaton is the region of all its states. -/

/-- The closure is found by a search with a worklist. -/
theorem search_absorb (nfa : Nfa) :
    Worklist.Search nfa.absorb (fun s i => s.mem i = true) (fun i => (nfa.state i).silent) where
  skip := by
    intro s i h
    by_contra hmem
    simp [absorb, hmem] at h
  take := by
    intro s i s' more h
    cases hmem : s.mem i with
    | true => simp [absorb, hmem] at h
    | false =>
      simp only [absorb, hmem, Bool.false_eq_true, if_false, Option.some.injEq,
        Prod.mk.injEq] at h
      obtain ⟨rfl, rfl⟩ := h
      refine ⟨Bool.false_ne_true, rfl, fun j => ?_⟩
      rw [StateSet.mem_insert, Bool.or_eq_true, decide_eq_true_eq, eq_comm]

section Region

variable {region : Set Nat}

/-- The closure of some states holds the states that silent edges lead to. -/
theorem mem_closure_iff_of_closed (hclosed : nfa.Closed region)
    (hregion : ∀ i ∈ region, i < nfa.size) {states : List Nat} (hstates : ∀ i ∈ states, i ∈ region)
    {k : Nat} : (nfa.closure states).mem k = true ↔ ∃ i ∈ states, nfa.Path i [] k := by
  have hiff : ∀ k, Worklist.Reachable (fun i => (nfa.state i).silent) states k ↔
      ∃ i ∈ states, nfa.Path i [] k := fun k =>
    exists_congr fun i => and_congr_right fun _ => path_nil_iff.symm
  rw [← hiff]
  refine (search_absorb nfa).mem_run_iff (Finset.range nfa.size) ?_ (by simp) (by simp)
  intro j hj
  obtain ⟨i, hi, hpath⟩ := (hiff j).1 hj
  exact Finset.mem_range.2 (hregion j (hpath.mem_of_closed hclosed (hstates i hi)))

/-- One byte leads to the targets of its moves and to what silent edges reach from there. -/
theorem mem_stepFrom_iff_of_closed (hclosed : nfa.Closed region)
    (hregion : ∀ i ∈ region, i < nfa.size) {states : List Nat}
    (hstates : ∀ i ∈ states, ∀ j ∈ (nfa.state i).targets, j ∈ region) {b : UInt8} {k : Nat} :
    (nfa.stepFrom states b).mem k = true ↔ ∃ i ∈ states, ∃ s j, (s, j) ∈ (nfa.state i).moves ∧
      s.contains b = true ∧ nfa.Path j [] k := by
  have htargets : ∀ j, j ∈ states.flatMap (nfa.targets b) ↔
      ∃ i ∈ states, ∃ s, (s, j) ∈ (nfa.state i).moves ∧ s.contains b = true := by
    simp [targets, List.mem_flatMap]
  rw [stepFrom, mem_closure_iff_of_closed hclosed hregion]
  · constructor
    · rintro ⟨j, hj, hpath⟩
      obtain ⟨i, hi, s, hmove, hb⟩ := (htargets j).1 hj
      exact ⟨i, hi, s, j, hmove, hb, hpath⟩
    · rintro ⟨i, hi, s, j, hmove, hb, hpath⟩
      exact ⟨j, (htargets j).2 ⟨i, hi, s, hmove, hb⟩, hpath⟩
  · intro j hj
    obtain ⟨i, hi, s, hmove, -⟩ := (htargets j).1 hj
    exact hstates i hi j (State.mem_targets_of_move hmove)

/-- A step of a set that is closed under silent edges reaches what a path over one byte does. -/
theorem mem_step_iff_of_closed (hclosed : nfa.Closed region)
    (hregion : ∀ i ∈ region, i < nfa.size) {s : StateSet} {b : UInt8} {k : Nat}
    (htargets : ∀ i, s.mem i = true → ∀ j ∈ (nfa.state i).targets, j ∈ region)
    (hs : ∀ i j, s.mem i = true → nfa.Path i [] j → s.mem j = true) :
    (nfa.step s b).mem k = true ↔ ∃ i, s.mem i = true ∧ nfa.Path i [b] k := by
  rw [step, mem_stepFrom_iff_of_closed hclosed hregion fun i hi =>
    htargets i ((StateSet.mem_toList s i).1 hi)]
  constructor
  · rintro ⟨i, hi, t, j, hmove, hb, hpath⟩
    exact ⟨i, (StateSet.mem_toList s i).1 hi, .move hmove hb hpath⟩
  · rintro ⟨i, hi, hpath⟩
    obtain ⟨p, t, j, hp, hmove, hb, hj⟩ := path_cons_iff.1 hpath
    exact ⟨p, (StateSet.mem_toList s p).2 (hs i p hi hp), t, j, hmove, hb, hj⟩

/-- Steps over a string, from a set that is closed under silent edges.  The set behind each step is
closed again, which carries the induction. -/
theorem mem_foldl_step_iff_of_closed (hclosed : nfa.Closed region)
    (hregion : ∀ i ∈ region, i < nfa.size) {s : StateSet} {w : List UInt8} {k : Nat}
    (htargets : ∀ i, s.mem i = true → ∀ j ∈ (nfa.state i).targets, j ∈ region)
    (hs : ∀ i j, s.mem i = true → nfa.Path i [] j → s.mem j = true) :
    (w.foldl nfa.step s).mem k = true ↔ ∃ i, s.mem i = true ∧ nfa.Path i w k := by
  induction w generalizing s with
  | nil => exact ⟨fun h => ⟨k, h, .refl k⟩, fun ⟨i, hi, hpath⟩ => hs i k hi hpath⟩
  | cons b w ih =>
    have hstep := fun k => mem_step_iff_of_closed (b := b) (k := k) hclosed hregion htargets hs
    -- a step leads into the region, and what is reached there is closed under silent edges again
    have hinside : ∀ i, (nfa.step s b).mem i = true → i ∈ region := by
      intro i hi
      obtain ⟨p, hp, hpath⟩ := (hstep i).1 hi
      obtain ⟨q, t, j, hq, hmove, -, hj⟩ := path_cons_iff.1 hpath
      have hmem := htargets q (hs p q hp hq) j (State.mem_targets_of_move hmove)
      exact hj.mem_of_closed hclosed hmem
    have hsilent : ∀ i j, (nfa.step s b).mem i = true → nfa.Path i [] j →
        (nfa.step s b).mem j = true := by
      intro i j hi hpath
      obtain ⟨p, hp, hi⟩ := (hstep i).1 hi
      exact (hstep j).2 ⟨p, hp, by simpa using hi.trans hpath⟩
    rw [List.foldl_cons, ih (fun i hi => hclosed i (hinside i hi)) hsilent]
    constructor
    · rintro ⟨i, hi, hpath⟩
      obtain ⟨p, hp, hi⟩ := (hstep i).1 hi
      exact ⟨p, hp, hi.trans hpath⟩
    · rintro ⟨p, hp, hpath⟩
      obtain ⟨i, hi, hk⟩ := path_append_iff.1 (show nfa.Path p ([b] ++ w) k from hpath)
      exact ⟨i, (hstep i).2 ⟨p, hp, hi⟩, hk⟩

/-- The closure of a state is closed under silent edges. -/
theorem mem_closure_of_path (hclosed : nfa.Closed region)
    (hregion : ∀ i ∈ region, i < nfa.size) {states : List Nat} (hstates : ∀ i ∈ states, i ∈ region)
    (i j : Nat) (hi : (nfa.closure states).mem i = true) (hpath : nfa.Path i [] j) :
    (nfa.closure states).mem j = true := by
  rw [mem_closure_iff_of_closed hclosed hregion hstates] at hi ⊢
  obtain ⟨p, hp, hi⟩ := hi
  exact ⟨p, hp, hi.trans hpath⟩

/-- **A run that begins in a closed region** reaches exactly the states that the paths over its
bytes lead to. -/
theorem mem_run_iff_of_closed (hclosed : nfa.Closed region) (hregion : ∀ i ∈ region, i < nfa.size)
    {start : Nat} (hstart : start ∈ region) {w : List UInt8} {k : Nat} :
    (nfa.run start w).mem k = true ↔ nfa.Path start w k := by
  have hstates : ∀ i ∈ [start], i ∈ region := by simpa using hstart
  have hmem : ∀ i, (nfa.closure [start]).mem i = true ↔ nfa.Path start [] i := fun i => by
    simp [mem_closure_iff_of_closed hclosed hregion hstates]
  have htargets : ∀ i, (nfa.closure [start]).mem i = true →
      ∀ j ∈ (nfa.state i).targets, j ∈ region :=
    fun i hi => hclosed i (((hmem i).1 hi).mem_of_closed hclosed hstart)
  rw [run, mem_foldl_step_iff_of_closed hclosed hregion htargets
    (mem_closure_of_path hclosed hregion hstates)]
  constructor
  · rintro ⟨i, hi, hpath⟩
    exact ((hmem i).1 hi).trans hpath
  · exact fun h => ⟨start, (hmem start).2 (.refl _), h⟩

end Region

/-- The closure of some states has what silent paths lead to. -/
theorem mem_closure_iff (hwf : nfa.WellFormed) {states : List Nat}
    (hstates : ∀ i ∈ states, i < nfa.size) {k : Nat} :
    (nfa.closure states).mem k = true ↔ ∃ i ∈ states, nfa.Path i [] k :=
  mem_closure_iff_of_closed hwf.closed (fun _ hi => hi) hstates

/-- Behind a byte are the states that an edge with the byte and a silent path lead to. -/
theorem mem_stepFrom_iff (hwf : nfa.WellFormed) {states : List Nat} {b : UInt8} {k : Nat} :
    (nfa.stepFrom states b).mem k = true ↔ ∃ i ∈ states, ∃ s j, (s, j) ∈ (nfa.state i).moves ∧
      s.contains b = true ∧ nfa.Path j [] k :=
  mem_stepFrom_iff_of_closed hwf.closed (fun _ hi => hi) fun i _ => hwf i

theorem within_closure (hwf : nfa.WellFormed) {states : List Nat}
    (hstates : ∀ i ∈ states, i < nfa.size) : (nfa.closure states).Within nfa.size := by
  intro k hk
  obtain ⟨i, hi, hpath⟩ := (mem_closure_iff hwf hstates).1 hk
  exact hpath.mem_of_closed hwf.closed (hstates i hi)

theorem within_stepFrom (hwf : nfa.WellFormed) (states : List Nat) (b : UInt8) :
    (nfa.stepFrom states b).Within nfa.size := by
  intro k hk
  obtain ⟨i, -, s, j, hmove, -, hpath⟩ := (mem_stepFrom_iff hwf).1 hk
  exact hpath.mem_of_closed hwf.closed (hwf i j (State.mem_targets_of_move hmove))

/-- A step from a closed set follows the paths over one byte. -/
theorem mem_step_iff (hwf : nfa.WellFormed) {s : StateSet} {b : UInt8} {k : Nat}
    (hs : ∀ i j, s.mem i = true → nfa.Path i [] j → s.mem j = true) :
    (nfa.step s b).mem k = true ↔ ∃ i, s.mem i = true ∧ nfa.Path i [b] k :=
  mem_step_iff_of_closed hwf.closed (fun _ hi => hi) (fun i _ => hwf i) hs

/-- Steps over a string follow the paths over it. -/
theorem mem_foldl_step_iff (hwf : nfa.WellFormed) {s : StateSet} {w : List UInt8} {k : Nat}
    (hs : ∀ i j, s.mem i = true → nfa.Path i [] j → s.mem j = true) :
    (w.foldl nfa.step s).mem k = true ↔ ∃ i, s.mem i = true ∧ nfa.Path i w k :=
  mem_foldl_step_iff_of_closed hwf.closed (fun _ hi => hi) (fun i _ => hwf i) hs

/-- **A run reaches exactly the states that the paths over its bytes lead to.** -/
theorem mem_run_iff (hwf : nfa.WellFormed) {start : Nat} (hstart : start < nfa.size)
    {w : List UInt8} {k : Nat} : (nfa.run start w).mem k = true ↔ nfa.Path start w k :=
  mem_run_iff_of_closed hwf.closed (fun _ hi => hi) hstart

/-! ### Bytes of one group

No set on an edge tells the bytes of one group apart.  So a step can be taken with the
representative of the group. -/

/-- The set of each edge is one of those that the groups are made of. -/
theorem mem_moveSets {i j : Nat} {s : ByteSet} (h : (s, j) ∈ (nfa.state i).moves) :
    s ∈ nfa.moveSets := by
  have hlt : i < nfa.states.size := by
    by_contra hle
    rw [state_of_size_le (show nfa.size ≤ i from not_lt.1 hle)] at h
    cases h
  have hstate : nfa.state i = nfa.states[i] := by simp [state, hlt]
  rw [hstate] at h
  exact List.mem_flatMap.2 ⟨_, Array.getElem_mem_toList hlt, List.mem_map.2 ⟨(s, j), h, rfl⟩⟩

/-- Bytes that no set on an edge tells apart lead to the same states. -/
theorem stepFrom_congr {a b : UInt8}
    (h : (ByteGroups.ofSets nfa.moveSets).group a = (ByteGroups.ofSets nfa.moveSets).group b)
    (states : List Nat) : nfa.stepFrom states a = nfa.stepFrom states b := by
  have htargets : nfa.targets a = nfa.targets b := by
    funext i
    refine congrArg (List.map Prod.snd) (List.filter_congr fun move hmove => ?_)
    exact ByteGroups.contains_eq_of_group_eq h (mem_moveSets hmove)
  rw [stepFrom, stepFrom, htargets]

end Nfa

end FrontEnd
