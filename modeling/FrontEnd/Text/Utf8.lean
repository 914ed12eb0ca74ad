/-!
# UTF-8

Byte strings as text.  Decoding never fails: every maximal part of the bytes that can not be
continued to a character is read as one replacement character `U+FFFD`.

## Main Definitions

* `bytesOf` — the UTF-8 bytes of a text
* `Utf8.Pending` — a character of which some bytes have been read
* `decodeUtf8` — the text of a byte string

## Design Notes

The decoder reads one byte at a time.  A pending character knows how many bytes it still needs
and which values the next byte may have, which is where overlong forms, surrogates and code points
above `U+10FFFF` are refused: at the first byte that rules them out.
-/

namespace FrontEnd

/-- The UTF-8 bytes of a text. -/
def bytesOf (text : String) : List UInt8 := text.toUTF8.data.toList

namespace Utf8

/-- A character of which at least one byte has been read. -/
structure Pending where
  /-- Number of bytes that are still to come. -/
  owed : Nat
  /-- Least value of the next byte. -/
  low : UInt8
  /-- Greatest value of the next byte. -/
  high : UInt8
  /-- The bits read so far. -/
  value : Nat

/-- What the first byte of a character announces: a character of one byte, the start of a longer
one, or nothing that UTF-8 allows. -/
inductive Lead where
  | single (c : Char)
  | pending (p : Pending)
  | invalid

/-- Classifies the first byte of a character. -/
def lead (b : UInt8) : Lead :=
  let n := b.toNat
  if n ≤ 0x7f then .single (Char.ofNat n)
  else if 0xc2 ≤ n && n ≤ 0xdf then .pending ⟨1, 0x80, 0xbf, n - 0xc0⟩
  else if n = 0xe0 then .pending ⟨2, 0xa0, 0xbf, 0⟩
  else if n = 0xed then .pending ⟨2, 0x80, 0x9f, 0xd⟩
  else if 0xe1 ≤ n && n ≤ 0xef then .pending ⟨2, 0x80, 0xbf, n - 0xe0⟩
  else if n = 0xf0 then .pending ⟨3, 0x90, 0xbf, 0⟩
  else if 0xf1 ≤ n && n ≤ 0xf3 then .pending ⟨3, 0x80, 0xbf, n - 0xf0⟩
  else if n = 0xf4 then .pending ⟨3, 0x80, 0x8f, 4⟩
  else .invalid

/-- The character read in place of bytes that are no UTF-8. -/
def replacement : Char := Char.ofNat 0xfffd

/-- Reads a byte where a character starts: the characters that are complete, and the pending one. -/
def start (b : UInt8) : List Char × Option Pending :=
  match lead b with
  | .single c => ([c], none)
  | .pending p => ([], some p)
  | .invalid => ([replacement], none)

/-- Reads one byte.  A byte that can not continue the pending character closes it with a
replacement character and starts the next one. -/
def step (pending : Option Pending) (b : UInt8) : List Char × Option Pending :=
  match pending with
  | none => start b
  | some p =>
    if p.low ≤ b && b ≤ p.high then
      let value := p.value * 64 + (b.toNat - 0x80)
      if p.owed ≤ 1 then ([Char.ofNat value], none)
      else ([], some ⟨p.owed - 1, 0x80, 0xbf, value⟩)
    else
      let (chars, next) := start b
      (replacement :: chars, next)

/-- The characters of a byte string that follows the pending character. -/
def decode : Option Pending → List UInt8 → List Char
  | none, [] => []
  | some _, [] => [replacement]
  | pending, b :: rest =>
    let (chars, next) := step pending b
    chars ++ decode next rest

end Utf8

/-- The text of a byte string, with a replacement character for every maximal invalid part. -/
def decodeUtf8 (bytes : List UInt8) : String := String.ofList (Utf8.decode none bytes)

end FrontEnd
