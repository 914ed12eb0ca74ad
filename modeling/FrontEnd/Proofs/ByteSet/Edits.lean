import FrontEnd.Proofs.ByteSet.Words
import Mathlib.Data.Set.Basic

/-!
# Sets of bytes behind any edits

However a set of bytes has come about, it holds the bytes that its edits say, and its ranges are the
only canonical list of them.  The same edits on four words lead to the same set and the same ranges.

## Main Definitions

* `ByteEdit` — one change of a set of bytes
* `ByteEdit.meaning` — what the change means for the bytes
* `ByteSet.editAll`, `ByteWords.editAll` — the changes one after the other

## Main Statements

* `ByteSet.bytes_editAll` — the bytes of a set behind any edits
* `ByteWords.toByteSet_editAll` — four words stand for this set
* `ByteWords.ranges_exact` — the ranges of a set behind any edits
-/

namespace FrontEnd

/-- One change of a set of bytes, where `σ` says what another set is given as. -/
inductive ByteEdit (σ : Type) where
  | insert (b : UInt8)
  | insertRange (first last : UInt8)
  | remove (b : UInt8)
  | union (other : σ)
  | complement
  | addAsciiCase

namespace ByteEdit

variable {σ τ : Type}

/-- The same change, with another set given in a different way. -/
def map (f : σ → τ) : ByteEdit σ → ByteEdit τ
  | insert b => insert b
  | insertRange first last => insertRange first last
  | remove b => remove b
  | union other => union (f other)
  | complement => complement
  | addAsciiCase => addAsciiCase

/-- Sets in the place of sets, two times, are put in at once. -/
theorem map_comp_map {υ : Type} (f : σ → τ) (g : τ → υ) : map g ∘ map f = map (g ∘ f) := by
  funext e
  cases e <;> rfl

/-- What a change means for the bytes of a set. -/
def meaning (s : Set UInt8) : ByteEdit (Set UInt8) → Set UInt8
  | insert b => s ∪ {b}
  | insertRange first last => s ∪ {b | first ≤ b ∧ b ≤ last}
  | remove b => s \ {b}
  | union other => s ∪ other
  | complement => sᶜ
  | addAsciiCase => {b | ∃ a ∈ s, Ascii.SameLetter a b}

end ByteEdit

/-! ### Sets

Each edit of a set is the operation of set theory on its bytes.  The law is proved for one edit, and
follows for a history by induction on it. -/

namespace ByteSet

/-- The bytes of a set. -/
def bytes (s : ByteSet) : Set UInt8 := {b | s.contains b = true}

/-- A set behind one change. -/
def edit (s : ByteSet) : ByteEdit ByteSet → ByteSet
  | .insert b => s.insert b
  | .insertRange first last => s.insertRange first last
  | .remove b => s.remove b
  | .union other => s.union other
  | .complement => s.complement
  | .addAsciiCase => s.addAsciiCase

/-- A set behind some changes. -/
def editAll (s : ByteSet) (edits : List (ByteEdit ByteSet)) : ByteSet := edits.foldl edit s

/-- Membership is what the set says. -/
theorem mem_bytes {s : ByteSet} {b : UInt8} : b ∈ s.bytes ↔ s.contains b = true := Iff.rfl

/-- A change does to the bytes what it means. -/
theorem bytes_edit (s : ByteSet) (e : ByteEdit ByteSet) :
    (s.edit e).bytes = ByteEdit.meaning s.bytes (e.map bytes) := by
  ext b
  rw [mem_bytes]
  cases e with
  | insert a => simp [edit, ByteEdit.map, ByteEdit.meaning, mem_bytes, eq_comm (a := b)]
  | insertRange first last => simp [edit, ByteEdit.map, ByteEdit.meaning, mem_bytes]
  | remove a => simp [edit, ByteEdit.map, ByteEdit.meaning, mem_bytes, and_comm, eq_comm (a := b)]
  | union other => simp [edit, ByteEdit.map, ByteEdit.meaning, mem_bytes]
  | complement => simp [edit, ByteEdit.map, ByteEdit.meaning, mem_bytes]
  | addAsciiCase =>
    have hsame : ∀ a, Ascii.SameLetter a b ↔ a = b ∨ a = Ascii.otherCase b := fun a =>
      Ascii.sameLetter_comm.trans Ascii.sameLetter_iff
    simp [edit, ByteEdit.map, ByteEdit.meaning, mem_bytes, hsame, and_or_left, exists_or]

/-- **The bytes of a set behind any edits** are those that the edits say. -/
theorem bytes_editAll (s : ByteSet) (edits : List (ByteEdit ByteSet)) :
    (s.editAll edits).bytes = (edits.map (ByteEdit.map bytes)).foldl ByteEdit.meaning s.bytes := by
  induction edits generalizing s with
  | nil => rfl
  | cons e edits ih =>
    rw [List.map_cons, List.foldl_cons, ← bytes_edit]
    exact ih (s.edit e)

end ByteSet

/-! ### Words

Read as a set, edited words are the edited set.  So the history of the words needs no argument of
its own about bits. -/

namespace ByteWords

/-- The words behind one change. -/
def edit (s : ByteWords) : ByteEdit ByteWords → ByteWords
  | .insert b => s.insert b
  | .insertRange first last => s.insertRange first last
  | .remove b => s.remove b
  | .union other => s.union other
  | .complement => s.complement
  | .addAsciiCase => s.addAsciiCase

/-- The words behind some changes. -/
def editAll (s : ByteWords) (edits : List (ByteEdit ByteWords)) : ByteWords := edits.foldl edit s

/-- **One edit** of the words is the edit of the set that they stand for. -/
theorem toByteSet_edit (s : ByteWords) (e : ByteEdit ByteWords) :
    (s.edit e).toByteSet = s.toByteSet.edit (e.map toByteSet) := by
  cases e with
  | insert b => exact s.toByteSet_insert b
  | insertRange first last => exact s.toByteSet_insertRange first last
  | remove b => exact s.toByteSet_remove b
  | union other => exact s.toByteSet_union other
  | complement => exact s.toByteSet_complement
  | addAsciiCase => exact s.toByteSet_addAsciiCase

/-- **Four words stand for the set behind the same edits.** -/
theorem toByteSet_editAll (s : ByteWords) (edits : List (ByteEdit ByteWords)) :
    (s.editAll edits).toByteSet = s.toByteSet.editAll (edits.map (ByteEdit.map toByteSet)) := by
  induction edits generalizing s with
  | nil => rfl
  | cons e edits ih =>
    rw [editAll, List.foldl_cons]
    refine (ih (s.edit e)).trans ?_
    rw [toByteSet_edit]
    rfl

/-- **The ranges of a set behind any edits.** The set holds the bytes that the edits say, whether it
is kept in four words or as one vector of bits, and its ranges are the same in both.  They are
strictly sorted, none of them is empty and no two touch; they cover the bytes of the set; their
lengths add up to its size; entered into an empty set they give the set back; and no other list of
this form covers these bytes. -/
theorem ranges_exact (start : ByteWords) (edits : List (ByteEdit ByteWords)) :
    let words := start.editAll edits
    let set := start.toByteSet.editAll (edits.map (ByteEdit.map toByteSet))
    let bytes := (edits.map (ByteEdit.map fun other => other.toByteSet.bytes)).foldl
      ByteEdit.meaning start.toByteSet.bytes
    (∀ b, (set.contains b = true ↔ b ∈ bytes) ∧ words.contains b = set.contains b) ∧
    (words.ranges = set.ranges ∧ words.size = set.size) ∧
    (set.ranges.Pairwise fun r q => r.last < q.first) ∧
    (ByteRange.IsCanonical set.ranges ∧ ∀ b, ByteRange.Covered set.ranges b ↔ b ∈ bytes) ∧
    (set.ranges.map ByteRange.size).sum = set.size ∧
    (ByteSet.ofRanges set.ranges = set ∧ empty.insertRanges words.ranges = words) ∧
    ∀ ranges, ByteRange.IsCanonical ranges → (∀ b, ByteRange.Covered ranges b ↔ b ∈ bytes) →
      ranges = set.ranges := by
  intro words set bytes
  have hset : words.toByteSet = set := toByteSet_editAll start edits
  have hbytes : ∀ b, set.contains b = true ↔ b ∈ bytes := by
    intro b
    rw [← ByteSet.mem_bytes, ByteSet.bytes_editAll, List.map_map, ByteEdit.map_comp_map]
    rfl
  have hcanonical : ByteRange.IsCanonical set.ranges :=
    ByteRange.isCanonical_ofBytes set.pairwise_toList
  have hcovered : ∀ b, ByteRange.Covered set.ranges b ↔ b ∈ bytes := by
    intro b
    rw [← hbytes, ← ByteSet.mem_toList]
    exact ByteRange.covered_ofBytes_iff
  have hranges : words.ranges = set.ranges := by rw [ranges_eq, hset]
  have hwords : empty.insertRanges words.ranges = words := by
    apply toByteSet_injective
    rw [toByteSet_insertRanges, toByteSet_empty, hranges, hset]
    exact set.ofRanges_ranges
  refine ⟨fun b => ⟨hbytes b, by rw [← hset, contains_toByteSet]⟩, ⟨hranges, by rw [size_eq, hset]⟩,
    hcanonical.pairwise, ⟨hcanonical, hcovered⟩, ByteRange.sum_size_ofBytes _,
    ⟨set.ofRanges_ranges, hwords⟩, fun ranges h hranges => ?_⟩
  exact h.unique hcanonical fun b => (hranges b).trans (hcovered b).symm

/-- Edits at the borders of the words and of all bytes. -/
def editsAtBorders : List (ByteEdit ByteWords) :=
  [.insertRange 0x3e 0x41, .insertRange 0x7a 0x61, .insert 0xff, .remove 0x40, .addAsciiCase,
    .complement]

/-- The range from `z` to `a` adds nothing, the letter `A` brings `a`, and what is left out of all
bytes in the end splits them into four ranges. -/
theorem ranges_exact_editsAtBorders :
    ByteRange.IsCanonical [⟨0x00, 0x3d⟩, ⟨0x40, 0x40⟩, ⟨0x42, 0x60⟩, ⟨0x62, 0xfe⟩] ∧
    (empty.editAll editsAtBorders).ranges =
      [⟨0x00, 0x3d⟩, ⟨0x40, 0x40⟩, ⟨0x42, 0x60⟩, ⟨0x62, 0xfe⟩] := by
  obtain ⟨hbytes, ⟨hranges, -⟩, -, -, -, -, hunique⟩ := ranges_exact empty editsAtBorders
  have hcanonical :
      ByteRange.IsCanonical [⟨0x00, 0x3d⟩, ⟨0x40, 0x40⟩, ⟨0x42, 0x60⟩, ⟨0x62, 0xfe⟩] := by decide
  refine ⟨hcanonical, hranges.trans (hunique _ hcanonical fun b => ?_).symm⟩
  rw [← (hbytes b).1, ← (hbytes b).2]
  revert b
  suffices h : ∀ b ∈ allBytes, _ from fun b => h b (mem_allBytes b)
  decide +kernel

end ByteWords

end FrontEnd
