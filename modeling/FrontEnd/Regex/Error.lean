import FrontEnd.Text.Escape

/-!
# Errors in patterns

## Main Definitions

* `PatternFault` — what is wrong with a pattern
* `PatternError` — a fault and the byte offset at which it was found
* `PatternFault.message`, `PatternError.message` — their wording
-/

namespace FrontEnd

/-- What is wrong with a pattern. -/
inductive PatternFault where
  | emptyPattern
  | unbalancedParen
  | unclosedClass
  | emptyClass
  | invalidRange (low high : UInt8)
  | unknownNamedClass (name : String)
  | invalidQuantifier
  | nothingToRepeat
  | lazyQuantifier
  | unterminatedString
  | trailingBackslash
  | invalidEscape (letter : UInt8)
  | invalidHex
  | misplacedAnchor (anchor : UInt8)
  | nonAsciiInClass
  | unclosedReference
  | unknownReference (name : String)
  | recursiveReference (name : String)
  /-- A fault in the body of a named pattern, at an offset in that body. -/
  | inBody (name : String) (position : Nat) (fault : PatternFault)
deriving DecidableEq

/-- The wording of a fault. -/
def PatternFault.message : PatternFault → String
  | .emptyPattern => "empty pattern"
  | .unbalancedParen => "unbalanced parenthesis"
  | .unclosedClass => "unterminated character class"
  | .emptyClass => "character class matches nothing"
  | .invalidRange low high =>
    "invalid class range '" ++ escapeCodePoint low ++ "'-'" ++ escapeCodePoint high ++ "'"
  | .unknownNamedClass name => "unknown POSIX class '" ++ name ++ "'"
  | .invalidQuantifier => "invalid quantifier bounds"
  | .nothingToRepeat => "quantifier without operand"
  | .lazyQuantifier => "lazy quantifiers are not supported"
  | .unterminatedString => "unterminated quoted string"
  | .trailingBackslash => "incomplete escape sequence"
  | .invalidEscape letter =>
    "unknown escape sequence '\\" ++ String.singleton (Ascii.toChar letter) ++ "'"
  | .invalidHex => "invalid hexadecimal escape sequence"
  | .misplacedAnchor anchor =>
    "anchor '" ++ String.singleton (Ascii.toChar anchor) ++
      "' is only allowed at the start ('^') or at the end ('$') of a pattern"
  | .nonAsciiInClass => "non-ASCII characters are not allowed in a character class"
  | .unclosedReference => "unterminated macro reference"
  | .unknownReference name => "unknown macro '" ++ name ++ "'"
  | .recursiveReference name => "recursive reference to macro '" ++ name ++ "'"
  | .inBody name position fault =>
    "in macro '" ++ name ++ "': " ++ fault.message ++ " at position " ++ toString position

/-- A fault of a pattern at a byte offset. -/
structure PatternError where
  position : Nat
  fault : PatternFault
deriving DecidableEq

/-- The wording of an error. -/
def PatternError.message (e : PatternError) : String :=
  e.fault.message ++ " at position " ++ toString e.position

end FrontEnd
