/-!
# ASCII byte classes

Classes of single bytes as the pattern language and the name rules use them.  A byte above `0x7f`
belongs to none of them.

## Main Definitions

* `Ascii.isDigit`, `Ascii.isLower`, `Ascii.isUpper`, `Ascii.isAlpha`, `Ascii.isAlnum`
* `Ascii.otherCase` — the same letter in the other case
* `Ascii.hexValue?` — the value of a hexadecimal digit
* `Ascii.hexByte` — the two lower-case hexadecimal digits of a byte
-/

namespace FrontEnd

namespace Ascii

/-- The decimal digits. -/
def isDigit (b : UInt8) : Bool := 0x30 ≤ b && b ≤ 0x39

/-- The lower-case letters. -/
def isLower (b : UInt8) : Bool := 0x61 ≤ b && b ≤ 0x7a

/-- The upper-case letters. -/
def isUpper (b : UInt8) : Bool := 0x41 ≤ b && b ≤ 0x5a

/-- The letters of both cases. -/
def isAlpha (b : UInt8) : Bool := isLower b || isUpper b

/-- The letters and the digits. -/
def isAlnum (b : UInt8) : Bool := isAlpha b || isDigit b

/-- The bytes below `0x80`. -/
def isAscii (b : UInt8) : Bool := b < 0x80

/-- The visible characters and the space. -/
def isPrint (b : UInt8) : Bool := 0x20 ≤ b && b ≤ 0x7e

/-- A letter in its other case; any other byte is left as it is. -/
def otherCase (b : UInt8) : UInt8 :=
  if isLower b then b - 0x20 else if isUpper b then b + 0x20 else b

/-- The value of a hexadecimal digit of either case. -/
def hexValue? (b : UInt8) : Option Nat :=
  if isDigit b then some (b.toNat - 0x30)
  else if 0x61 ≤ b && b ≤ 0x66 then some (b.toNat - 0x57)
  else if 0x41 ≤ b && b ≤ 0x46 then some (b.toNat - 0x37)
  else none

/-- The lower-case hexadecimal digit of a value below 16. -/
def hexDigit (n : Nat) : Char :=
  if n < 10 then Char.ofNat (0x30 + n) else Char.ofNat (0x57 + n)

/-- The two lower-case hexadecimal digits of a byte. -/
def hexByte (b : UInt8) : List Char := [hexDigit (b.toNat / 16), hexDigit (b.toNat % 16)]

/-- The character whose code point is the byte. -/
def toChar (b : UInt8) : Char := Char.ofNat b.toNat

end Ascii

end FrontEnd
