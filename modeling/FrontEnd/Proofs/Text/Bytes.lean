import FrontEnd.Text.Utf8
import FrontEnd.Ascii
import Mathlib.Data.List.Nodup

/-!
# Bytes of a text

The bytes of texts that are put together from others, and the ASCII characters of which a byte is
the code point.

## Main Definitions

* `Ascii.ofChar` — the byte that a character is written with in ASCII
* `digits` — the bytes of the decimal digits of a number
* `numberedNames` — names that differ in a number

## Main Statements

* `bytesOf_append`, `bytesOf_join` — a text of several parts has the bytes of the parts
* `bytesOf_ofList` — a text of ASCII characters has a byte for each of them
* `utf8EncodeChar_of_le` — another character has several bytes, none of which belongs to ASCII
* `Ascii.ofChar_toChar` — the character of a byte is written with this byte
* `Ascii.hexValue?_ofChar` — a hexadecimal digit is read as the value that it was written for
* `eq_of_toDigits_append` — a number is known from a text that it stands in front of
-/

namespace FrontEnd

/-- The byte that a character is written with, when it belongs to ASCII. -/
def Ascii.ofChar (c : Char) : UInt8 := UInt8.ofNat c.toNat

theorem bytesOf_append (a b : String) : bytesOf (a ++ b) = bytesOf a ++ bytesOf b := by
  simp [bytesOf]

theorem bytesOf_join (texts : List String) :
    bytesOf (String.join texts) = texts.flatMap bytesOf := by
  induction texts with
  | nil => rw [String.join_nil]; rfl
  | cons text texts ih => rw [String.join_cons, bytesOf_append, ih, List.flatMap_cons]

/-- An ASCII character is written with one byte. -/
theorem utf8EncodeChar_of_lt {c : Char} (h : c.toNat < 0x80) :
    String.utf8EncodeChar c = [Ascii.ofChar c] :=
  if_pos (Nat.le_of_lt_succ h)

/-- Another character is written with several bytes, none of which belongs to ASCII. -/
theorem utf8EncodeChar_of_le {c : Char} (h : 0x80 ≤ c.toNat) :
    2 ≤ (String.utf8EncodeChar c).length ∧ ∀ b ∈ String.utf8EncodeChar c, 0x80 ≤ b := by
  have hbyte : ∀ n, 0x80 ≤ n → n < 256 → (0x80 : UInt8) ≤ UInt8.ofNat n := by
    intro n hle hlt
    rw [UInt8.le_iff_toNat_le, UInt8.toNat_ofNat_of_lt' hlt]
    exact hle
  have hbig : ¬ c.val.toNat ≤ 0x7f := Nat.not_le.2 h
  unfold String.utf8EncodeChar
  simp only [hbig, if_false]
  -- one case for each number of bytes
  split_ifs
  all_goals
    refine ⟨by simp, ?_⟩
    simp only [List.mem_cons, List.not_mem_nil, or_false, forall_eq_or_imp, forall_eq]
    and_intros <;> exact hbyte _ (by omega) (by omega)

theorem bytesOf_singleton (c : Char) : bytesOf (String.singleton c) = String.utf8EncodeChar c := by
  simp [bytesOf, List.utf8Encode]

/-- **ASCII characters are written with one byte each.** -/
theorem bytesOf_ofList {chars : List Char} (h : ∀ c ∈ chars, c.toNat < 0x80) :
    bytesOf (String.ofList chars) = chars.map Ascii.ofChar := by
  have hbytes : bytesOf (String.ofList chars) = chars.flatMap String.utf8EncodeChar := by
    simp [bytesOf, List.utf8Encode]
  rw [hbytes]
  induction chars with
  | nil => rfl
  | cons c chars ih =>
    obtain ⟨hc, hchars⟩ := List.forall_mem_cons.1 h
    rw [List.flatMap_cons, utf8EncodeChar_of_lt hc, ih hchars (by simp [bytesOf, List.utf8Encode])]
    rfl

namespace Ascii

/-- The character of a byte has its number. -/
theorem toNat_toChar (b : UInt8) : (toChar b).toNat = b.toNat := by
  have hvalid : b.toNat.isValidChar := .inl (by have := b.toNat_lt; omega)
  rw [toChar, Char.ofNat, dif_pos hvalid]
  rfl

/-- No byte is lost on the way through its character. -/
theorem ofChar_toChar (b : UInt8) : ofChar (toChar b) = b := by
  rw [ofChar, toNat_toChar, UInt8.ofNat_toNat]

/-- The printable bytes are those from the blank to the tilde. -/
theorem isPrint_iff {b : UInt8} : isPrint b = true ↔ 0x20 ≤ b.toNat ∧ b.toNat ≤ 0x7e := by
  simp [isPrint, UInt8.le_iff_toNat_le]

/-- The hexadecimal digits of a byte can be printed. -/
theorem isPrint_of_mem_hexByte {b : UInt8} :
    ∀ c ∈ hexByte b, 0x20 ≤ c.toNat ∧ c.toNat ≤ 0x7e := by
  have hdigit : ∀ n < 16, 0x20 ≤ (hexDigit n).toNat ∧ (hexDigit n).toNat ≤ 0x7e := by decide
  have hlt := b.toNat_lt
  have hhigh := hdigit (b.toNat / 16) (by omega)
  have hlow := hdigit (b.toNat % 16) (Nat.mod_lt _ (by decide))
  exact List.forall_mem_cons.2 ⟨hhigh, List.forall_mem_singleton.2 hlow⟩

/-- A hexadecimal digit is ASCII, and is read as the value that it was written for. -/
theorem hexValue?_ofChar {n : Nat} (h : n < 16) :
    (hexDigit n).toNat < 0x80 ∧ hexValue? (ofChar (hexDigit n)) = some n := by
  have hall : ∀ n < 16,
      (hexDigit n).toNat < 0x80 ∧ hexValue? (ofChar (hexDigit n)) = some n := by decide
  exact hall n h

/-- A decimal digit is ASCII, and is written for its value. -/
theorem isDigit_ofChar {c : Char} (h : c.isDigit = true) :
    c.toNat < 0x80 ∧ isDigit (ofChar c) = true ∧ (ofChar c).toNat - 0x30 = c.toNat - '0'.toNat := by
  have hrange : 0x30 ≤ c.toNat ∧ c.toNat ≤ 0x39 := by
    simpa [Char.isDigit, UInt32.le_iff_toNat_le] using h
  have hmod : (ofChar c).toNat = c.toNat := by
    simp only [ofChar, UInt8.toNat_ofNat']
    omega
  refine ⟨by omega, ?_, by rw [hmod]; rfl⟩
  simp only [isDigit, Bool.and_eq_true, decide_eq_true_eq, UInt8.le_iff_toNat_le, hmod]
  exact hrange

end Ascii

/-! ### Decimal digits

Numbers are printed with decimal digits and read back from them.  Here are the digits as bytes, and
what a reader finds that takes digits as long as there are some. -/

/-- The bytes of the decimal digits of a number. -/
def digits (n : Nat) : List UInt8 := (Nat.toDigits 10 n).map Ascii.ofChar

theorem bytesOf_repr (n : Nat) : bytesOf n.repr = digits n := by
  rw [Nat.repr_eq_ofList_toDigits]
  exact bytesOf_ofList fun c hc =>
    (Ascii.isDigit_ofChar (Nat.isDigit_of_mem_toDigits (by decide) (by decide) hc)).1

/-- A printed number has digits only. -/
theorem isDigit_of_mem_digits {n : Nat} : ∀ b ∈ digits n, Ascii.isDigit b = true := by
  intro b hb
  obtain ⟨c, hc, rfl⟩ := List.mem_map.1 hb
  exact (Ascii.isDigit_ofChar (Nat.isDigit_of_mem_toDigits (by decide) (by decide) hc)).2.1

theorem digits_ne_nil {n : Nat} : digits n ≠ [] :=
  List.map_eq_nil_iff.not.2 Nat.toDigits_ne_nil

theorem toList_toString (n : Nat) : (toString n).toList = Nat.toDigits 10 n := by
  rw [Nat.toString_eq_repr, Nat.repr_eq_ofList_toDigits, String.toList_ofList]

/-- A reader stops behind the digits when another character follows. -/
theorem takeWhile_toDigits (n : Nat) {c : Char} (hc : c.isDigit = false) (behind : List Char) :
    (Nat.toDigits 10 n ++ c :: behind).takeWhile Char.isDigit = Nat.toDigits 10 n := by
  have hdigits : ∀ d ∈ Nat.toDigits 10 n, d.isDigit = true := fun d hd =>
    Nat.isDigit_of_mem_toDigits (by decide) (by decide) hd
  rw [List.takeWhile_append_of_pos hdigits, List.takeWhile_cons_of_neg (by simp [hc]),
    List.append_nil]

theorem eq_of_toDigits_append {m n : Nat} {c c' : Char} {behind behind' : List Char}
    (hc : c.isDigit = false) (hc' : c'.isDigit = false)
    (h : Nat.toDigits 10 m ++ c :: behind = Nat.toDigits 10 n ++ c' :: behind') : m = n := by
  have hdigits := congrArg (List.takeWhile Char.isDigit) h
  rw [takeWhile_toDigits m hc, takeWhile_toDigits n hc'] at hdigits
  rw [← Nat.ofDigitChars_ten_toDigits (n := m), hdigits, Nat.ofDigitChars_ten_toDigits]

/-- Numbers behind a first part, which they have in common. -/
def numberedNames (first : String) (count : Nat) : List String :=
  (List.range count).map fun n => first ++ toString n

/-- Numbered names are different: the number can be read back behind the common front. -/
theorem nodup_numberedNames (first : String) (count : Nat) : (numberedNames first count).Nodup := by
  refine List.Nodup.map (fun m n heq => ?_) List.nodup_range
  have htext := congrArg String.toList heq
  simp only [String.toList_append, toList_toString] at htext
  have hdigits := List.append_cancel_left htext
  rw [← Nat.ofDigitChars_ten_toDigits (n := m), hdigits, Nat.ofDigitChars_ten_toDigits]

theorem getElem?_numberedNames (first : String) {count n : Nat} (h : n < count) :
    (numberedNames first count)[n]? = some (first ++ toString n) := by
  rw [numberedNames, List.getElem?_map, List.getElem?_range h]
  rfl

theorem length_numberedNames (first : String) (count : Nat) :
    (numberedNames first count).length = count := by
  rw [numberedNames, List.length_map, List.length_range]

end FrontEnd
