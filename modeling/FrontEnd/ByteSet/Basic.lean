import FrontEnd.Ascii

/-!
# Sets of bytes

The transitions of the automata are labelled with sets of bytes.  A set is a vector of 256 bits in
which bit `b` tells whether the byte `b` belongs to it, so two sets with the same bytes are equal.

## Main Definitions

* `ByteSet` — a set of byte values
* `ByteSet.contains` — membership, the view through which every operation is described
* `ByteSet.ofPred` — the bytes that satisfy a test
* `ByteSet.insert`, `ByteSet.insertRange`, `ByteSet.remove`, `ByteSet.union`,
  `ByteSet.complement`, `ByteSet.addAsciiCase` — the operations
* `ByteSet.toList` — the bytes of a set in ascending order

## Main Statements

One lemma `contains_…` for each operation says what it does to membership, and `ByteSet.ext` that
membership determines the set.
-/

namespace FrontEnd

/-- The 256 byte values in ascending order. -/
def allBytes : List UInt8 := (List.range 256).map UInt8.ofNat

/-- Every byte value occurs in the list of all of them. -/
theorem mem_allBytes (b : UInt8) : b ∈ allBytes :=
  List.mem_map.2 ⟨b.toNat, List.mem_range.2 b.toNat_lt, UInt8.ofNat_toNat⟩

/-- A set of byte values. -/
structure ByteSet where
  /-- Bit `b` is set when the byte `b` belongs to the set. -/
  bits : BitVec 256
deriving DecidableEq

namespace ByteSet

/-- The set without bytes. -/
def empty : ByteSet := ⟨0#256⟩

/-- The set of all bytes. -/
def full : ByteSet := ⟨BitVec.allOnes 256⟩

/-- Whether a byte belongs to a set. -/
def contains (s : ByteSet) (b : UInt8) : Bool := s.bits.getLsbD b.toNat

/-- The set with one more byte. -/
def insert (s : ByteSet) (b : UInt8) : ByteSet := ⟨s.bits ||| BitVec.twoPow 256 b.toNat⟩

/-- The set without a byte. -/
def remove (s : ByteSet) (b : UInt8) : ByteSet := ⟨s.bits &&& ~~~ BitVec.twoPow 256 b.toNat⟩

/-- The bytes of either set. -/
def union (s t : ByteSet) : ByteSet := ⟨s.bits ||| t.bits⟩

/-- Whether the sets have a byte in common. -/
def intersects (s t : ByteSet) : Bool := (s.bits &&& t.bits) != 0#256

/-- The bytes that do not belong to a set. -/
def complement (s : ByteSet) : ByteSet := ⟨~~~ s.bits⟩

/-- The set of the bytes of a list. -/
def ofList (bytes : List UInt8) : ByteSet := bytes.foldl insert empty

/-- The set of the bytes that satisfy a test. -/
def ofPred (p : UInt8 → Bool) : ByteSet := ofList (allBytes.filter p)

/-- The set of one byte. -/
def singleton (b : UInt8) : ByteSet := empty.insert b

/-- The bytes from `first` to `last`, none when `last < first`. -/
def range (first last : UInt8) : ByteSet := ofPred fun b => first ≤ b && b ≤ last

/-- The set with the bytes from `first` to `last` added; nothing is added when `last < first`. -/
def insertRange (s : ByteSet) (first last : UInt8) : ByteSet := s.union (range first last)

/-- The set with the other case of every ASCII letter in it. -/
def addAsciiCase (s : ByteSet) : ByteSet :=
  ofPred fun b => s.contains b || s.contains (Ascii.otherCase b)

/-- The bytes of a set in ascending order. -/
def toList (s : ByteSet) : List UInt8 := allBytes.filter s.contains

/-- Number of bytes in a set. -/
def size (s : ByteSet) : Nat := s.toList.length

/-- Whether a set has no bytes. -/
def isEmpty (s : ByteSet) : Bool := s == empty

/-- The least byte of a set. -/
def first? (s : ByteSet) : Option UInt8 := allBytes.find? s.contains

@[simp] theorem contains_empty (b : UInt8) : empty.contains b = false := by
  simp [contains, empty]

@[simp] theorem contains_full (b : UInt8) : full.contains b = true := by
  rw [contains, full, BitVec.getLsbD_allOnes]
  exact decide_eq_true b.toNat_lt

@[simp] theorem contains_insert (s : ByteSet) (a b : UInt8) :
    (s.insert a).contains b = (decide (a = b) || s.contains b) := by
  have ha := a.toNat_lt
  have hb := b.toNat_lt
  have hiff : a.toNat = b.toNat ↔ a = b := UInt8.toNat_inj
  by_cases h : a = b
  · subst h; simpa [contains, insert, BitVec.getLsbD_twoPow] using Or.inr ha
  · have : ¬ a.toNat = b.toNat := fun e => h (hiff.1 e)
    simp [contains, insert, BitVec.getLsbD_twoPow, h, this]

@[simp] theorem contains_remove (s : ByteSet) (a b : UInt8) :
    (s.remove a).contains b = (!decide (a = b) && s.contains b) := by
  have ha := a.toNat_lt
  have hb := b.toNat_lt
  have hiff : a.toNat = b.toNat ↔ a = b := UInt8.toNat_inj
  by_cases h : a = b
  · subst h; simp [contains, remove, BitVec.getLsbD_twoPow]
  · have : ¬ a.toNat = b.toNat := fun e => h (hiff.1 e)
    simp [contains, remove, BitVec.getLsbD_twoPow, h, this]
    intro _; omega

@[simp] theorem contains_union (s t : ByteSet) (b : UInt8) :
    (s.union t).contains b = (s.contains b || t.contains b) := by
  simp [contains, union]

@[simp] theorem contains_complement (s : ByteSet) (b : UInt8) :
    s.complement.contains b = !s.contains b := by
  have h : b.toNat < 256 := b.toNat_lt
  simp [contains, complement, h]

theorem contains_foldl_insert (bytes : List UInt8) (s : ByteSet) (b : UInt8) :
    (bytes.foldl insert s).contains b = (decide (b ∈ bytes) || s.contains b) := by
  induction bytes generalizing s with
  | nil => simp
  | cons a bytes ih =>
    rw [List.foldl_cons, ih, contains_insert]
    by_cases h : a = b
    · subst h; simp
    · have : ¬ b = a := fun e => h e.symm
      simp [h, this]

@[simp] theorem contains_ofList (bytes : List UInt8) (b : UInt8) :
    (ofList bytes).contains b = decide (b ∈ bytes) := by
  simp [ofList, contains_foldl_insert]

@[simp] theorem contains_ofPred (p : UInt8 → Bool) (b : UInt8) : (ofPred p).contains b = p b := by
  simp [ofPred, List.mem_filter, mem_allBytes]

@[simp] theorem contains_singleton (a b : UInt8) : (singleton a).contains b = decide (a = b) := by
  simp [singleton]

@[simp] theorem contains_range (first last b : UInt8) :
    (range first last).contains b = (decide (first ≤ b) && decide (b ≤ last)) := by
  simp [range]

@[simp] theorem contains_insertRange (s : ByteSet) (first last b : UInt8) :
    (s.insertRange first last).contains b =
      (s.contains b || (decide (first ≤ b) && decide (b ≤ last))) := by
  simp [insertRange]

@[simp] theorem contains_addAsciiCase (s : ByteSet) (b : UInt8) :
    s.addAsciiCase.contains b = (s.contains b || s.contains (Ascii.otherCase b)) := by
  simp [addAsciiCase]

/-- A set is determined by its bytes. -/
theorem ext {s t : ByteSet} (h : ∀ b, s.contains b = t.contains b) : s = t := by
  cases s with
  | mk x =>
    cases t with
    | mk y =>
      congr 1
      apply BitVec.eq_of_getLsbD_eq
      intro i hi
      have := h (UInt8.ofNat i)
      simpa [contains, Nat.mod_eq_of_lt hi] using this

/-- The list of a set holds exactly its bytes. -/
@[simp] theorem mem_toList (s : ByteSet) (b : UInt8) : b ∈ s.toList ↔ s.contains b = true := by
  simp [toList, List.mem_filter, mem_allBytes]

end ByteSet

end FrontEnd
