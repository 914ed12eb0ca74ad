/-!
# Sets of automaton states

A finite set of natural numbers, held as the number whose bit `i` tells whether `i` belongs to it.
Two sets with the same states are equal, which makes sets of states usable as keys.

## Main Definitions

* `StateSet` — a finite set of states
* `StateSet.mem` — membership, the view through which every operation is described
* `StateSet.insert`, `StateSet.union`, `StateSet.ofList`, `StateSet.toList` — the operations
* `StateSet.bitPlaces` — the places of the bits that are set in a number
* `StateSet.before` — the lexicographic order of the ascending lists of states

## Main Statements

The lemmas `mem_…` say what the operations do to membership, and `StateSet.ext` that membership
determines the set.
-/

namespace FrontEnd

/-- A finite set of states. -/
structure StateSet where
  /-- Bit `i` is set when the state `i` belongs to the set. -/
  bits : Nat
deriving DecidableEq

namespace StateSet

/-- The set without states. -/
def empty : StateSet := ⟨0⟩

/-- Whether a state belongs to a set. -/
def mem (s : StateSet) (i : Nat) : Bool := s.bits.testBit i

/-- The set with one more state. -/
def insert (s : StateSet) (i : Nat) : StateSet := ⟨s.bits ||| 1 <<< i⟩

/-- The states of either set. -/
def union (s t : StateSet) : StateSet := ⟨s.bits ||| t.bits⟩

/-- The set of the states of a list. -/
def ofList (states : List Nat) : StateSet := states.foldl insert empty

/-- The places of the lowest `2 ^ depth` bits that are set in a number, counted from `offset`, in
ascending order.  Halves without such bits are passed over at once. -/
def bitPlaces : (depth : Nat) → (bits offset : Nat) → List Nat
  | 0, bits, offset => if bits.testBit 0 then [offset] else []
  | depth + 1, bits, offset =>
    if bits = 0 then []
    else
      let width := 1 <<< depth
      bitPlaces depth (bits % 1 <<< width) offset ++
        bitPlaces depth (bits >>> width) (offset + width)

/-- The states of a set in ascending order. -/
def toList (s : StateSet) : List Nat := bitPlaces ((s.bits.log2 + 1).log2 + 1) s.bits 0

/-- Whether a set has no states. -/
def isEmpty (s : StateSet) : Bool := s.bits == 0

/-- The lexicographic order of the ascending lists of states. -/
def before (s t : StateSet) : Bool := decide (s.toList < t.toList)

@[simp] theorem mem_empty (i : Nat) : empty.mem i = false := by
  simp [mem, empty]

@[simp] theorem mem_insert (s : StateSet) (i j : Nat) :
    (s.insert i).mem j = (decide (i = j) || s.mem j) := by
  simp [mem, insert, Nat.one_shiftLeft, Nat.testBit_two_pow, Bool.or_comm]

@[simp] theorem mem_union (s t : StateSet) (i : Nat) :
    (s.union t).mem i = (s.mem i || t.mem i) := by
  simp [mem, union]

/-- A set is determined by its states. -/
theorem ext {s t : StateSet} (h : ∀ i, s.mem i = t.mem i) : s = t := by
  cases s with
  | mk x =>
    cases t with
    | mk y => exact congrArg mk (Nat.eq_of_testBit_eq h)

theorem mem_bitPlaces {depth bits offset i : Nat} :
    i ∈ bitPlaces depth bits offset ↔
      offset ≤ i ∧ i < offset + 1 <<< depth ∧ bits.testBit (i - offset) = true := by
  induction depth generalizing bits offset with
  | zero =>
    unfold bitPlaces
    constructor
    · intro h
      split at h
      next hb =>
        obtain rfl := List.mem_singleton.1 h
        simpa using hb
      next => cases h
    · rintro ⟨hle, hlt, hb⟩
      obtain rfl : i = offset := by omega
      simpa using hb
  | succ depth ih =>
    unfold bitPlaces
    split
    next hz => simp [hz]
    next =>
      rw [List.mem_append, ih, ih, Nat.testBit_shiftRight]
      simp only [Nat.one_shiftLeft]
      rw [Nat.testBit_mod_two_pow, Nat.pow_succ]
      have hpos : 0 < 2 ^ depth := Nat.two_pow_pos depth
      by_cases hi : i < offset + 2 ^ depth
      · have hlow : decide (i - offset < 2 ^ depth) = true := decide_eq_true (by omega)
        rw [hlow, Bool.true_and]
        constructor
        · rintro (⟨hle, -, hb⟩ | ⟨hle, -⟩)
          · exact ⟨hle, by omega, hb⟩
          · omega
        · rintro ⟨hle, -, hb⟩
          exact Or.inl ⟨hle, hi, hb⟩
      · constructor
        · rintro (⟨-, hlt, -⟩ | ⟨hle, hlt, hb⟩)
          · omega
          · refine ⟨by omega, by omega, ?_⟩
            rwa [show i - offset = 2 ^ depth + (i - (offset + 2 ^ depth)) by omega]
        · rintro ⟨hle, hlt, hb⟩
          refine Or.inr ⟨by omega, by omega, ?_⟩
          rwa [show 2 ^ depth + (i - (offset + 2 ^ depth)) = i - offset by omega]

/-- The list of a set holds exactly its states. -/
@[simp] theorem mem_toList (s : StateSet) (i : Nat) : i ∈ s.toList ↔ s.mem i = true := by
  rw [toList, mem_bitPlaces, mem, Nat.sub_zero, Nat.one_shiftLeft]
  constructor
  · exact fun h => h.2.2
  · intro h
    have hz : s.bits ≠ 0 := by
      rintro hz
      simp [hz] at h
    have hlog : i ≤ s.bits.log2 := (Nat.le_log2 hz).2 (Nat.ge_two_pow_of_testBit h)
    have hlt : s.bits.log2 + 1 < 2 ^ ((s.bits.log2 + 1).log2 + 1) := Nat.lt_log2_self
    exact ⟨Nat.zero_le i, by omega, h⟩

end StateSet

end FrontEnd
