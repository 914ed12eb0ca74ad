import FrontEnd.ByteSet.Basic

/-!
# Letters in both cases

The other case of a letter is the same letter, and its other case is the letter again.  What a byte
is otherwise does not change with its case.

## Main Definitions

* `Ascii.SameLetter` — bytes that differ in the case of a letter at most

## Main Statements

* `Ascii.otherCase_spec` — what the other case of a byte is, by one look at all bytes
* `Ascii.sameLetter_iff` — a byte has one other case
-/

namespace FrontEnd

namespace Ascii

/-- The bytes are equal, or one is an upper-case letter and the other its lower-case form. -/
def SameLetter (a b : UInt8) : Prop :=
  a = b ∨ (isUpper a = true ∧ b = a + 0x20) ∨ (isUpper b = true ∧ a = b + 0x20)

/-- What the other case of a byte is, by one look at all bytes. -/
theorem otherCase_spec (b : UInt8) :
    otherCase (otherCase b) = b ∧ isDigit (otherCase b) = isDigit b ∧
      isAlnum (otherCase b) = isAlnum b ∧ (isUpper b = true → otherCase b = b + 0x20) ∧
      SameLetter b (otherCase b) := by
  revert b
  suffices h : ∀ b ∈ allBytes, _ from fun b => h b (mem_allBytes b)
  unfold SameLetter
  decide +kernel

/-- A byte is a lower-case letter, or its other case is one, or it has no other case. -/
theorem isLower_cases (b : UInt8) :
    isLower b = true ∨ isLower (otherCase b) = true ∨ otherCase b = b := by
  revert b
  suffices h : ∀ b ∈ allBytes, _ from fun b => h b (mem_allBytes b)
  decide +kernel

/-- Changing the case twice changes nothing. -/
theorem otherCase_otherCase (b : UInt8) : otherCase (otherCase b) = b := (otherCase_spec b).1

/-- Digits have no case. -/
theorem isDigit_otherCase (b : UInt8) : isDigit (otherCase b) = isDigit b := (otherCase_spec b).2.1

/-- A letter stays a letter when its case changes, so alphanumeric bytes stay alphanumeric. -/
theorem isAlnum_otherCase (b : UInt8) : isAlnum (otherCase b) = isAlnum b :=
  (otherCase_spec b).2.2.1

/-- The small letter has a number that is larger by 32. -/
theorem otherCase_of_isUpper {b : UInt8} (h : isUpper b = true) : otherCase b = b + 0x20 :=
  (otherCase_spec b).2.2.2.1 h

/-- A byte and the other case of it are one letter. -/
theorem sameLetter_otherCase (b : UInt8) : SameLetter b (otherCase b) := (otherCase_spec b).2.2.2.2

theorem sameLetter_comm {a b : UInt8} : SameLetter a b ↔ SameLetter b a := by
  unfold SameLetter
  rw [eq_comm, or_comm (a := isUpper a = true ∧ b = a + 0x20)]

/-- A byte is the same letter as itself and as its other case, and no more. -/
theorem sameLetter_iff {a b : UInt8} : SameLetter a b ↔ b = a ∨ b = otherCase a := by
  constructor
  · rintro (rfl | ⟨hupper, rfl⟩ | ⟨hupper, rfl⟩)
    · exact .inl rfl
    · exact .inr (otherCase_of_isUpper hupper).symm
    · exact .inr (by rw [← otherCase_of_isUpper hupper, otherCase_otherCase])
  · rintro (rfl | rfl)
    · exact .inl rfl
    · exact sameLetter_otherCase a

/-- A byte that is its own other case is met in one case only. -/
theorem otherCase_eq_iff {b c : UInt8} (hc : otherCase c = c) : otherCase b = c ↔ b = c := by
  constructor
  · rintro rfl
    rw [← hc, otherCase_otherCase]
  · rintro rfl
    exact hc

end Ascii

end FrontEnd
