/-!
# Lexer options

## Main Definitions

* `Flags` — the options of a lexer definition
* `Flags.ofBits`, `Flags.bits` — the options as bits of a number
-/

namespace FrontEnd

/-- The options of a lexer definition. -/
structure Flags where
  /-- ASCII letters match in both cases. -/
  ignoreCase : Bool
  /-- The dot does not match a line feed. -/
  dotExceptLf : Bool
  /-- The dot matches neither a carriage return nor a line feed. -/
  dotExceptCrLf : Bool
  /-- A rule that skips blanks is added in all states, after all others. -/
  skipBlanks : Bool
  /-- Rules may match the empty string. -/
  matchEmpty : Bool
deriving DecidableEq

namespace Flags

/-- No option is set. -/
def none : Flags := ⟨false, false, false, false, false⟩

/-- The bits of the options, from the lowest up, in the order of the fields. -/
def bitValues : List Nat := [1, 2, 4, 8, 16]

/-- The options whose bits are set in a number; all other bits are ignored. -/
def ofBits (n : Nat) : Flags :=
  ⟨n.testBit 0, n.testBit 1, n.testBit 2, n.testBit 3, n.testBit 4⟩

/-- The number in which the bits of the options are set. -/
def bits (f : Flags) : Nat :=
  f.ignoreCase.toNat + 2 * f.dotExceptLf.toNat + 4 * f.dotExceptCrLf.toNat +
    8 * f.skipBlanks.toNat + 16 * f.matchEmpty.toNat

/-- Reading the bits of some options gives the options back. -/
theorem ofBits_bits (f : Flags) : ofBits f.bits = f := by
  rcases f with ⟨_ | _, _ | _, _ | _, _ | _, _ | _⟩ <;> rfl

end Flags

end FrontEnd
