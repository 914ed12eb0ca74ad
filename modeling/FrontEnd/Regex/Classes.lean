import FrontEnd.ByteSet.Basic

/-!
# Classes of bytes with a name

The sets that a pattern can refer to with an escape letter or, inside brackets, by name.

## Main Definitions

* `digitSet`, `wordSet`, `spaceSet` — the sets behind `\d`, `\w` and `\s`
* `escapeClass?` — the set of an escape letter
* `namedClass?` — the set of a name such as `alpha`
-/

namespace FrontEnd

/-- The decimal digits. -/
def digitSet : ByteSet := ByteSet.ofPred Ascii.isDigit

/-- Letters, digits and the underscore. -/
def wordSet : ByteSet := ByteSet.ofPred fun b => Ascii.isAlnum b || b == 0x5f

/-- Space, tab, line feed, carriage return, form feed and vertical tab. -/
def spaceSet : ByteSet := ByteSet.ofList [0x20, 0x09, 0x0a, 0x0d, 0x0c, 0x0b]

/-- The set of an escape letter; the upper-case letters stand for the complements. -/
def escapeClass? (letter : UInt8) : Option ByteSet :=
  if letter = 0x64 then some digitSet
  else if letter = 0x44 then some digitSet.complement
  else if letter = 0x77 then some wordSet
  else if letter = 0x57 then some wordSet.complement
  else if letter = 0x73 then some spaceSet
  else if letter = 0x53 then some spaceSet.complement
  else none

/-- The sets that have a name inside brackets. -/
def namedClasses : List (String × ByteSet) :=
  [("alpha", ByteSet.ofPred Ascii.isAlpha),
   ("digit", digitSet),
   ("alnum", ByteSet.ofPred Ascii.isAlnum),
   ("upper", ByteSet.ofPred Ascii.isUpper),
   ("lower", ByteSet.ofPred Ascii.isLower),
   ("space", spaceSet),
   ("blank", ByteSet.ofList [0x20, 0x09]),
   ("punct", ByteSet.ofPred fun b => Ascii.isPrint b && b != 0x20 && !Ascii.isAlnum b),
   ("xdigit", ByteSet.ofPred fun b => (Ascii.hexValue? b).isSome),
   ("cntrl", ByteSet.ofPred fun b => b < 0x20 || b == 0x7f),
   ("print", ByteSet.ofPred Ascii.isPrint),
   ("graph", ByteSet.ofPred fun b => Ascii.isPrint b && b != 0x20)]

/-- The set with a name. -/
def namedClass? (name : String) : Option ByteSet := namedClasses.lookup name

end FrontEnd
