import FrontEnd.Proofs.Ascii
import FrontEnd.Proofs.ByteSet.Ranges
import Mathlib.Data.List.FinRange
import Mathlib.Logic.Function.Defs

/-!
# Sets of bytes in four words

A set of bytes fits into four words of 64 bits: the two upper bits of a byte select the word, and
the six lower bits the bit.  Every operation on sets has a form that works on the words alone, bit
by bit or with one loop over bytes.  Read as one vector of bits, the words give the same answers.

## Main Definitions

* `ByteWords` — four words, with the operations on them
* `ByteWords.toByteSet` — the set that the words stand for

## Main Statements

* `ByteWords.contains_eq` — a byte belongs to the words when its bit is set
* `ByteWords.toByteSet_insert`, … — each operation on words is the one on sets
* `ByteWords.size_eq` — the bits that are set are counted word by word
* `ByteWords.ranges_eq` — the ranges are found with one pass over the bytes
* `ByteWords.toByteSet_injective` — different words are different sets
-/

namespace FrontEnd

/-- A set of bytes in four words of 64 bits. -/
structure ByteWords where
  /-- The words, that of the least bytes first. -/
  words : Vector UInt64 4
deriving DecidableEq

namespace ByteWords

/-! ### Operations on words

The operations as loops over bits and bytes.  Nothing is said here about the set that the words
stand for. -/

/-- The words without bytes. -/
def empty : ByteWords := ⟨Vector.replicate 4 0⟩

/-- One of the words. -/
def word (s : ByteWords) (i : Fin 4) : UInt64 := s.words[i]

/-- Puts another word into a place. -/
def setWord (s : ByteWords) (i : Fin 4) (w : UInt64) : ByteWords := ⟨s.words.set i w⟩

/-- The place of the word of a byte. -/
def place (b : UInt8) : Fin 4 :=
  ⟨(b >>> 6).toNat, by
    have hlt := b.toNat_lt
    rw [UInt8.toNat_shiftRight, Nat.shiftRight_eq_div_pow]
    show b.toNat / 64 < 4
    omega⟩

/-- The bit of a byte in its word. -/
def bit (b : UInt8) : UInt64 := 1 <<< (b &&& 63).toUInt64

/-- Whether a byte belongs to the words. -/
def contains (s : ByteWords) (b : UInt8) : Bool := s.word (place b) &&& bit b != 0

/-- The words with one more byte. -/
def insert (s : ByteWords) (b : UInt8) : ByteWords :=
  s.setWord (place b) (s.word (place b) ||| bit b)

/-- The words without a byte. -/
def remove (s : ByteWords) (b : UInt8) : ByteWords :=
  s.setWord (place b) (s.word (place b) &&& ~~~bit b)

/-- The bytes of either. -/
def union (s t : ByteWords) : ByteWords := ⟨s.words.zipWith (· ||| ·) t.words⟩

/-- The bytes that do not belong to the words. -/
def complement (s : ByteWords) : ByteWords := ⟨s.words.map (~~~ ·)⟩

/-- The bytes from `first` to `last` in ascending order. -/
def between (first last : UInt8) : List UInt8 := allBytes.filter fun b => first ≤ b && b ≤ last

/-- The words with the bytes from `first` to `last` entered one by one. -/
def insertRange (s : ByteWords) (first last : UInt8) : ByteWords :=
  if first ≤ last then (between first last).foldl insert s else s

/-- Enters both cases of a lower-case letter when one of them is there. -/
def completeLetter (s : ByteWords) (b : UInt8) : ByteWords :=
  if s.contains b || s.contains (b - 0x20) then (s.insert b).insert (b - 0x20) else s

/-- The words with the other case of every ASCII letter in them, letter by letter. -/
def addAsciiCase (s : ByteWords) : ByteWords := (between 0x61 0x7a).foldl completeLetter s

/-- The bytes of the words in ascending order. -/
def toList (s : ByteWords) : List UInt8 := allBytes.filter s.contains

/-- Number of bytes in the words, the bits that are set. -/
def size (s : ByteWords) : Nat := (s.words.toList.map fun w => w.toBitVec.cpop.toNat).sum

/-- The ranges of the words, found by extending the last one. -/
def ranges (s : ByteWords) : List ByteRange := s.toList.foldl ByteRange.extend []

/-- The words with the bytes of every range added. -/
def insertRanges (s : ByteWords) (ranges : List ByteRange) : ByteWords :=
  ranges.foldl (fun s r => s.insertRange r.first r.last) s

/-- The set that the words stand for. -/
def toByteSet (s : ByteWords) : ByteSet := ByteSet.ofPred s.contains

/-! ### Bits

A byte is a word and a bit of it.  Seen as one vector of 256 bits, the word and the bit of a byte
are its quotient and its rest by 64. -/

theorem word_setWord (s : ByteWords) (i j : Fin 4) (w : UInt64) :
    (s.setWord i w).word j = if i = j then w else s.word j := by
  simp [word, setWord, Vector.getElem_set, Fin.ext_iff]

theorem word_union (s t : ByteWords) (i : Fin 4) :
    (s.union t).word i = s.word i ||| t.word i := by
  simp [word, union]

theorem word_complement (s : ByteWords) (i : Fin 4) : s.complement.word i = ~~~s.word i := by
  simp [word, complement]

/-- The word of a byte is given by its upper two bits. -/
theorem toNat_place (b : UInt8) : (place b : Nat) = b.toNat / 64 := by
  show (b >>> 6).toNat = b.toNat / 64
  rw [UInt8.toNat_shiftRight, Nat.shiftRight_eq_div_pow]
  rfl

/-- A byte is known by its word and its bit. -/
theorem eq_iff_place_eq (a b : UInt8) :
    a = b ↔ place a = place b ∧ a.toNat % 64 = b.toNat % 64 := by
  rw [← UInt8.toNat_inj, Fin.ext_iff, toNat_place, toNat_place]
  omega

theorem toBitVec_bit (b : UInt8) : (bit b).toBitVec = BitVec.twoPow 64 (b.toNat % 64) := by
  have hmask : b.toNat &&& 63 = b.toNat % 64 := Nat.and_two_pow_sub_one_eq_mod b.toNat 6
  have hbit : (bit b).toNat = 1 <<< (b.toNat % 64) % 2 ^ 64 := by simp [bit, hmask]
  apply BitVec.eq_of_toNat_eq
  rw [UInt64.toNat_toBitVec, hbit, Nat.one_shiftLeft, BitVec.toNat_twoPow]

theorem getLsbD_bit (a : UInt8) {i : Nat} (hi : i < 64) :
    (bit a).toBitVec.getLsbD i = decide (a.toNat % 64 = i) := by
  rw [toBitVec_bit, BitVec.getLsbD_twoPow]
  simp
  omega

/-- A byte belongs to the words when its bit is set. -/
theorem contains_eq (s : ByteWords) (b : UInt8) :
    s.contains b = (s.word (place b)).toBitVec.getLsbD (b.toNat % 64) := by
  have hlt : b.toNat % 64 < 64 := Nat.mod_lt _ (by decide)
  have hne : BitVec.twoPow 64 (b.toNat % 64) ≠ 0#64 := by
    intro h
    have hzero := congrArg (fun v => BitVec.getLsbD v (b.toNat % 64)) h
    simp [hlt] at hzero
  unfold contains
  rw [Bool.eq_iff_iff, bne_iff_ne, ne_eq, ← UInt64.toBitVec_inj, UInt64.toBitVec_and, toBitVec_bit,
    BitVec.and_twoPow]
  split
  · next h => simp [h, hne]
  · next h => simp [h]

/-- Each bit of a word is a byte. -/
theorem getLsbD_word (s : ByteWords) (i : Fin 4) {j : Nat} (hj : j < 64) :
    (s.word i).toBitVec.getLsbD j = s.contains (UInt8.ofNat (64 * i + j)) := by
  have hbyte : (UInt8.ofNat (64 * i + j)).toNat = 64 * i + j :=
    UInt8.toNat_ofNat_of_lt' (show 64 * i.val + j < 256 by omega)
  have hplace : place (UInt8.ofNat (64 * i + j)) = i := by
    rw [Fin.ext_iff, toNat_place, hbyte]
    omega
  rw [contains_eq, hplace, hbyte, Nat.mul_add_mod, Nat.mod_eq_of_lt hj]

/-! ### Membership

Membership after each operation, from the bits.  These are the laws by which the words and the sets
are compared. -/

@[simp] theorem contains_empty (b : UInt8) : empty.contains b = false := by
  simp [contains_eq, empty, word]

/-- An insertion adds its byte. -/
@[simp] theorem contains_insert (s : ByteWords) (a b : UInt8) :
    (s.insert a).contains b = (decide (a = b) || s.contains b) := by
  have hlt : b.toNat % 64 < 64 := Nat.mod_lt _ (by decide)
  rw [contains_eq, contains_eq, insert, word_setWord]
  by_cases h : place a = place b
  · simp [h, getLsbD_bit a hlt, eq_iff_place_eq a b, Bool.or_comm]
  · simp [h, eq_iff_place_eq a b]

/-- A removal takes its byte away. -/
@[simp] theorem contains_remove (s : ByteWords) (a b : UInt8) :
    (s.remove a).contains b = (!decide (a = b) && s.contains b) := by
  have hlt : b.toNat % 64 < 64 := Nat.mod_lt _ (by decide)
  rw [contains_eq, contains_eq, remove, word_setWord]
  by_cases h : place a = place b
  · rw [if_pos h, h, UInt64.toBitVec_and, UInt64.toBitVec_not, BitVec.getLsbD_and,
      BitVec.getLsbD_not, getLsbD_bit a hlt]
    simp [eq_iff_place_eq a b, h, hlt, Bool.and_comm]
  · simp [h, eq_iff_place_eq a b]

@[simp] theorem contains_union (s t : ByteWords) (b : UInt8) :
    (s.union t).contains b = (s.contains b || t.contains b) := by
  simp [contains_eq, word_union]

@[simp] theorem contains_complement (s : ByteWords) (b : UInt8) :
    s.complement.contains b = !s.contains b := by
  have hlt : b.toNat % 64 < 64 := Nat.mod_lt _ (by decide)
  simp [contains_eq, word_complement, hlt]

@[simp] theorem contains_toByteSet (s : ByteWords) (b : UInt8) :
    s.toByteSet.contains b = s.contains b := by
  simp [toByteSet]

/-- Completing a letter adds the other case of its two forms. -/
theorem contains_completeLetter (s : ByteWords) {a : UInt8} (ha : a - 0x20 = Ascii.otherCase a)
    (b : UInt8) :
    (s.completeLetter a).contains b =
      (s.contains b || (decide (b = a ∨ Ascii.otherCase b = a) &&
        s.contains (Ascii.otherCase b))) := by
  have hother := Ascii.otherCase_otherCase
  rw [completeLetter, ha]
  split <;> grind [contains_insert]

/-- Completing some letters adds the other case of their forms, in whatever order they are taken. -/
theorem contains_foldl_completeLetter {letters : List UInt8}
    (hletters : ∀ a ∈ letters, a - 0x20 = Ascii.otherCase a) (s : ByteWords) (b : UInt8) :
    (letters.foldl completeLetter s).contains b =
      (s.contains b || (decide (b ∈ letters ∨ Ascii.otherCase b ∈ letters) &&
        s.contains (Ascii.otherCase b))) := by
  induction letters generalizing s with
  | nil => simp
  | cons a letters ih =>
    obtain ⟨ha, hrest⟩ := List.forall_mem_cons.1 hletters
    rw [List.foldl_cons, ih hrest, contains_completeLetter s ha, contains_completeLetter s ha,
      Ascii.otherCase_otherCase]
    grind

/-! ### The set that the words stand for

A set is determined by its bytes, so each operation on words is the operation on sets as soon as the
memberships agree. -/

theorem toByteSet_empty : empty.toByteSet = ByteSet.empty := ByteSet.ext fun _ => by simp

theorem toByteSet_insert (s : ByteWords) (b : UInt8) :
    (s.insert b).toByteSet = s.toByteSet.insert b := ByteSet.ext fun _ => by simp

theorem toByteSet_remove (s : ByteWords) (b : UInt8) :
    (s.remove b).toByteSet = s.toByteSet.remove b := ByteSet.ext fun _ => by simp

theorem toByteSet_union (s t : ByteWords) :
    (s.union t).toByteSet = s.toByteSet.union t.toByteSet := ByteSet.ext fun _ => by simp

theorem toByteSet_complement (s : ByteWords) :
    s.complement.toByteSet = s.toByteSet.complement := ByteSet.ext fun _ => by simp

/-- Insertion of a range, byte by byte. -/
theorem toByteSet_insertRange (s : ByteWords) (first last : UInt8) :
    (s.insertRange first last).toByteSet = s.toByteSet.insertRange first last := by
  refine ByteSet.ext fun b => ?_
  unfold insertRange
  split
  · have hfold : (between first last).foldl ByteSet.insert s.toByteSet =
        ((between first last).foldl insert s).toByteSet :=
      List.foldl_hom toByteSet fun s b => (toByteSet_insert s b).symm
    rw [← hfold, ByteSet.contains_foldl_insert]
    simp [between, mem_allBytes, Bool.or_comm]
  · next h =>
    have hnone : ¬ (first ≤ b ∧ b ≤ last) := fun hb => h (UInt8.le_trans hb.1 hb.2)
    simp [hnone]

theorem toByteSet_insertRanges (s : ByteWords) (ranges : List ByteRange) :
    (s.insertRanges ranges).toByteSet = s.toByteSet.insertRanges ranges :=
  (List.foldl_hom toByteSet fun s r => (toByteSet_insertRange s r.first r.last).symm).symm

/-- The letters get their other case.  The words are completed letter by letter, and a letter that
has been completed is not touched by the others. -/
theorem toByteSet_addAsciiCase (s : ByteWords) :
    s.addAsciiCase.toByteSet = s.toByteSet.addAsciiCase := by
  have hletters : ∀ b, b ∈ between 0x61 0x7a ↔ Ascii.isLower b = true := by
    simp [between, mem_allBytes, Ascii.isLower]
  refine ByteSet.ext fun b => ?_
  rw [contains_toByteSet, addAsciiCase, contains_foldl_completeLetter,
    ByteSet.contains_addAsciiCase, contains_toByteSet, contains_toByteSet]
  · simp only [hletters]
    have hcases := Ascii.isLower_cases b
    grind
  · intro a ha
    rw [Ascii.otherCase, if_pos ((hletters a).1 ha)]

/-- The words of a set are those that sets are ordered by. -/
theorem word_toByteSet (s : ByteWords) (i : Fin 4) : s.toByteSet.word i = (s.word i).toNat := by
  rw [ByteSet.word, ← UInt64.toNat_toBitVec]
  congr 1
  apply BitVec.eq_of_getLsbD_eq
  intro j hj
  have hbyte : (UInt8.ofNat (64 * i + j)).toNat = 64 * i + j :=
    UInt8.toNat_ofNat_of_lt' (show 64 * i.val + j < 256 by omega)
  rw [s.getLsbD_word i hj, ← contains_toByteSet, ByteSet.contains, hbyte,
    BitVec.getLsbD_extractLsb', decide_eq_true hj, Bool.true_and]

/-- Different words are different sets. -/
theorem toByteSet_injective : Function.Injective toByteSet := by
  intro s t h
  have hword : ∀ i : Fin 4, s.word i = t.word i := by
    intro i
    rw [← UInt64.toNat_inj, ← word_toByteSet, ← word_toByteSet, h]
  obtain ⟨words⟩ := s
  obtain ⟨words'⟩ := t
  exact congrArg ByteWords.mk (Vector.ext fun i hi => hword ⟨i, hi⟩)

theorem toList_eq (s : ByteWords) : s.toList = s.toByteSet.toList := by
  unfold toList ByteSet.toList
  exact List.filter_congr fun b _ => (s.contains_toByteSet b).symm

/-- The ranges are found with one pass over the bytes. -/
theorem ranges_eq (s : ByteWords) : s.ranges = s.toByteSet.ranges := by
  rw [ranges, ByteSet.ranges, toList_eq, ByteRange.foldl_extend]

/-! ### Number of bytes

The machine counts the bits of a word.  Added up over the words, this is the number of bytes of the
set. -/

/-- Counting the bits of a vector is counting the places whose bit is set. -/
theorem toNat_cpop_eq_countP {n : Nat} (x : BitVec n) :
    x.cpop.toNat = (List.range n).countP x.getLsbD := by
  have hcount : ∀ k, x.cpopNatRec k 0 = (List.range k).countP x.getLsbD := by
    intro k
    induction k with
    | zero => rfl
    | succ k ih =>
      rw [BitVec.cpopNatRec_succ, BitVec.cpopNatRec_add, ih, List.range_succ, List.countP_append,
        List.countP_singleton]
      cases x.getLsbD k <;> rfl
  rw [BitVec.toNat_cpop, hcount]

/-- The bytes are counted word by word. -/
theorem size_eq (s : ByteWords) : s.size = s.toByteSet.size := by
  have hwords : s.words.toList = (List.finRange 4).map s.word := by
    apply List.ext_getElem
    · simp
    · simp [word]
  -- the bytes in ascending order are the bits of the first word, then those of the next
  have hblocks : List.range 256 =
      (List.finRange 4).flatMap fun i => (List.range 64).map (64 * i.val + ·) := by
    decide +kernel
  rw [ByteSet.size, ← toList_eq, toList, ← List.countP_eq_length_filter, allBytes, List.countP_map,
    hblocks, List.countP_flatMap, size, hwords, List.map_map]
  congr 1
  apply List.map_congr_left
  intro i _
  simp only [Function.comp_apply, toNat_cpop_eq_countP]
  rw [List.countP_map]
  apply List.countP_congr
  intro j hj
  simp [s.getLsbD_word i (List.mem_range.1 hj)]

end ByteWords

end FrontEnd
