import FrontEnd.Ascii

/-!
# Escaped bytes

The printable form of a byte string.  Five bytes have a short escape, the other printable ASCII
characters stand for themselves, and every other byte is written `\xHH` in lower case.

## Main Definitions

* `escapeByte` — the printable form of one byte
* `escapeBytes` — the printable forms of a byte string, joined
* `escapeCodePoint` — the printable form of the character whose code point is a byte

## Design Notes

Every form is a list of characters, so that a reader of escapes can be compared with it
character by character.
-/

namespace FrontEnd

/-- The characters that stand for one byte. -/
def escapeChars (b : UInt8) : List Char :=
  if b = 0x0a then ['\\', 'n']
  else if b = 0x0d then ['\\', 'r']
  else if b = 0x09 then ['\\', 't']
  else if b = 0x5c then ['\\', '\\']
  else if b = 0x22 then ['\\', '"']
  else if Ascii.isPrint b then [Ascii.toChar b]
  else '\\' :: 'x' :: Ascii.hexByte b

/-- The printable form of one byte. -/
def escapeByte (b : UInt8) : String := String.ofList (escapeChars b)

/-- The printable form of a byte string. -/
def escapeBytes (bytes : List UInt8) : String := String.ofList (bytes.flatMap escapeChars)

/-- The lower-case hexadecimal digits of a byte without a leading zero. -/
def shortHex (b : UInt8) : List Char :=
  if b < 0x10 then [Ascii.hexDigit b.toNat] else Ascii.hexByte b

/-- The printable form of the character whose code point is the byte: quotes, the backslash and
four control characters have a short escape, and what is not printable is written with its code
point between braces. -/
def escapeCodePoint (b : UInt8) : String :=
  if b = 0x00 then "\\0"
  else if b = 0x09 then "\\t"
  else if b = 0x0a then "\\n"
  else if b = 0x0d then "\\r"
  else if b = 0x22 then "\\\""
  else if b = 0x27 then "\\'"
  else if b = 0x5c then "\\\\"
  else if Ascii.isPrint b || (0xa1 ≤ b && b ≠ 0xad) then String.singleton (Ascii.toChar b)
  else "\\u\x7b" ++ String.ofList (shortHex b) ++ "\x7d"

end FrontEnd
