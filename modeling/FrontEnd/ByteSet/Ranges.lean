import FrontEnd.ByteSet.Basic
import FrontEnd.Text.Escape

/-!
# Ranges of a byte set

The canonical written form of a byte set is its list of maximal ranges.  Printing, and the order
in which sets are listed, are defined here too.

## Main Definitions

* `ByteSet.ranges` — the maximal ranges of a set in ascending order
* `ByteSet.ofRanges` — the set that a list of ranges describes
* `ByteSet.display` — ranges of quoted bytes, or `DOT` for the full set
* `ByteSet.hexDisplay` — ranges of hexadecimal bytes
* `ByteSet.order` — the lexicographic order of the four 64-bit words
-/

namespace FrontEnd

/-- An inclusive range of bytes. -/
structure ByteRange where
  first : UInt8
  last : UInt8
deriving DecidableEq

namespace ByteRange

/-- The maximal runs of consecutive bytes in a list. -/
def ofBytes : List UInt8 → List ByteRange
  | [] => []
  | b :: bytes =>
    match ofBytes bytes with
    | [] => [⟨b, b⟩]
    | range :: ranges =>
      if b.toNat + 1 = range.first.toNat then ⟨b, range.last⟩ :: ranges
      else ⟨b, b⟩ :: range :: ranges

/-- A range as one or two quoted bytes. -/
def display (r : ByteRange) : String :=
  if r.first = r.last then "'" ++ escapeByte r.first ++ "'"
  else "'" ++ escapeByte r.first ++ "'-'" ++ escapeByte r.last ++ "'"

/-- A range as two hexadecimal bytes. -/
def hexDisplay (r : ByteRange) : String :=
  "0x" ++ String.ofList (Ascii.hexByte r.first) ++ "-0x" ++ String.ofList (Ascii.hexByte r.last)

end ByteRange

namespace ByteSet

/-- The maximal ranges of a set: sorted, and with a gap between any two of them. -/
def ranges (s : ByteSet) : List ByteRange := ByteRange.ofBytes s.toList

/-- The set with the bytes of every range added. -/
def insertRanges (s : ByteSet) (ranges : List ByteRange) : ByteSet :=
  ranges.foldl (fun s r => s.insertRange r.first r.last) s

/-- The set that a list of ranges describes. -/
def ofRanges (ranges : List ByteRange) : ByteSet := empty.insertRanges ranges

/-- A set as its ranges of quoted bytes; the full set is written `DOT`. -/
def display (s : ByteSet) : String :=
  if s = full then "DOT" else String.intercalate ", " (s.ranges.map ByteRange.display)

/-- A set as its ranges of hexadecimal bytes. -/
def hexDisplay (s : ByteSet) : String :=
  "ByteSet(" ++ String.intercalate ", " (s.ranges.map ByteRange.hexDisplay) ++ ")"

/-- Word `i` of a set, the number whose bit `j` stands for the byte `64 * i + j`. -/
def word (s : ByteSet) (i : Nat) : Nat := (s.bits.extractLsb' (64 * i) 64).toNat

/-- The order of sets: their four words are compared as numbers, the word of the least bytes
first. -/
def order (s t : ByteSet) : Ordering :=
  (List.range 4).foldl (fun o i => o.then (compare (s.word i) (t.word i))) .eq

end ByteSet

end FrontEnd
