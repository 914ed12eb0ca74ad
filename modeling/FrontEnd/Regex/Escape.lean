import FrontEnd.Regex.Classes
import FrontEnd.Regex.Error

/-!
# Characters of a pattern

A pattern is read byte by byte, and a backslash joins the bytes behind it to one character.  This
holds everywhere in a pattern, so it is done once, before anything else is looked at.

## Main Definitions

* `Escape` — what an escape stands for: one byte or a class of bytes
* `PatternChar` — a plain byte or an escape, with its byte offset
* `patternChars` — the characters of a pattern

## Design Notes

A faulty escape is a character too.  Its fault is reported only when the reading of the pattern
gets there, so that a fault further to the front is reported first.
-/

namespace FrontEnd

/-- What an escape stands for. -/
inductive Escape where
  | byte (b : UInt8)
  /-- A class of bytes and the letter it was written with. -/
  | bytes (letter : UInt8) (s : ByteSet)
deriving DecidableEq

/-- A byte of a pattern as it stands, or an escape that is read or faulty. -/
inductive PatternChar where
  | plain (b : UInt8)
  | escape (e : Escape)
  | faulty (fault : PatternFault)
deriving DecidableEq

/-- The byte that a letter after a backslash stands for, where it has a meaning of its own. -/
def escapeLetter? (letter : UInt8) : Option UInt8 :=
  if letter = 0x6e then some 0x0a
  else if letter = 0x72 then some 0x0d
  else if letter = 0x74 then some 0x09
  else if letter = 0x66 then some 0x0c
  else if letter = 0x76 then some 0x0b
  else if letter = 0x61 then some 0x07
  else if letter = 0x65 then some 0x1b
  else if letter = 0x30 then some 0x00
  else none

/-- What a single byte after a backslash stands for.  Letters and digits without a meaning are
refused; every other byte stands for itself. -/
def escapeOf (b : UInt8) : PatternChar :=
  match escapeLetter? b with
  | some byte => .escape (.byte byte)
  | none =>
    match escapeClass? b with
    | some s => .escape (.bytes b s)
    | none => if Ascii.isAlnum b then .faulty (.invalidEscape b) else .escape (.byte b)

/-- The characters of a pattern that begins at the byte offset, each with its own offset. -/
def patternCharsFrom (position : Nat) : List UInt8 → List (Nat × PatternChar)
  | [] => []
  | 0x5c :: [] => [(position, .faulty .trailingBackslash)]
  | 0x5c :: 0x78 :: [] => [(position, .faulty .invalidHex)]
  | 0x5c :: 0x78 :: h :: [] =>
    match Ascii.hexValue? h with
    | some x => [(position, .escape (.byte (UInt8.ofNat x)))]
    | none => (position, .faulty .invalidHex) :: patternCharsFrom (position + 2) [h]
  | 0x5c :: 0x78 :: h :: l :: rest =>
    match Ascii.hexValue? h, Ascii.hexValue? l with
    | some x, some y =>
      (position, .escape (.byte (UInt8.ofNat (16 * x + y)))) ::
        patternCharsFrom (position + 4) rest
    | some x, none =>
      (position, .escape (.byte (UInt8.ofNat x))) :: patternCharsFrom (position + 3) (l :: rest)
    | none, _ => (position, .faulty .invalidHex) :: patternCharsFrom (position + 2) (h :: l :: rest)
  | 0x5c :: b :: rest => (position, escapeOf b) :: patternCharsFrom (position + 2) rest
  | b :: rest => (position, .plain b) :: patternCharsFrom (position + 1) rest

/-- The characters of a pattern with their byte offsets. -/
def patternChars (pattern : List UInt8) : List (Nat × PatternChar) := patternCharsFrom 0 pattern

end FrontEnd
