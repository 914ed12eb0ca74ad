import FrontEnd.Flags
import FrontEnd.Regex.Escape

/-!
# Lexemes of a pattern

The characters of a pattern are put together to lexemes: classes in brackets, quoted strings,
quantifiers, references to named patterns, and the signs that structure a pattern.

## Main Definitions

* `Lexeme` — the lexemes
* `classAt` — a class in brackets
* `textAt` — a quoted string
* `boundsAt`, `referenceAt` — what stands between braces
* `lexemes` — the lexemes of a pattern with their byte offsets

## Design Notes

A reader gets the characters behind its first one and answers how many of them it takes.  The main
loop passes over them one at a time, so that it recurs on the list of characters itself.
-/

namespace FrontEnd

/-- Characters of a pattern with their byte offsets. -/
abbrev PatternText := List (Nat × PatternChar)

/-- A lexeme of a pattern. -/
inductive Lexeme where
  /-- One byte of the set. -/
  | set (s : ByteSet)
  /-- One byte of each set in turn. -/
  | text (items : List ByteSet)
  /-- A reference to a named pattern. -/
  | reference (name : String)
  | opening
  | closing
  | bar
  | caret
  | dollar
  /-- The question mark, which is a quantifier and would make another one lazy. -/
  | question
  /-- Any other quantifier; `none` when its bounds are out of order or too large. -/
  | quantifier (bounds : Option (Nat × Option Nat))
  | malformed (error : PatternError)

/-- The greatest bound of a quantifier. -/
def maxRepeat : Nat := 1000

namespace Flags

/-- The set that a byte of a pattern stands for. -/
def literal (f : Flags) (b : UInt8) : ByteSet :=
  if f.ignoreCase then (ByteSet.singleton b).addAsciiCase else ByteSet.singleton b

/-- The set that the dot stands for. -/
def dot (f : Flags) : ByteSet :=
  let s := ByteSet.full
  let s := if f.dotExceptLf then s.remove 0x0a else s
  if f.dotExceptCrLf then (s.remove 0x0d).remove 0x0a else s

end Flags

/-- A plain byte that satisfies a test. -/
def PatternChar.isPlain (p : UInt8 → Bool) : PatternChar → Bool
  | .plain b => p b
  | _ => false

/-- The plain bytes at the front that satisfy a test. -/
def plainRun (p : UInt8 → Bool) : PatternText → List UInt8
  | (_, .plain b) :: rest => if p b then b :: plainRun p rest else []
  | _ => []

/-- Whether a plain byte stands at the front. -/
def startsWith (b : UInt8) : PatternText → Bool
  | (_, c) :: _ => c.isPlain (· == b)
  | [] => false

/-- The text of ASCII bytes. -/
def asciiText (bytes : List UInt8) : String := String.ofList (bytes.map Ascii.toChar)

/-! ### Classes -/

/-- The bytes from `low` to `high`, or the fault of a range in the wrong order. -/
def orderedRange (position : Nat) (low high : UInt8) : Except PatternError (ByteSet × Nat) :=
  if low ≤ high then .ok (ByteSet.range low high, 2) else .error ⟨position, .invalidRange low high⟩

/-- A byte inside brackets.  With a dash and another byte behind it, it is the start of a range. -/
def classRange (position : Nat) (low : UInt8) : PatternText → Except PatternError (ByteSet × Nat)
  | (_, .plain 0x2d) :: (highPosition, high) :: _ =>
    match high with
    | .faulty fault => .error ⟨highPosition, fault⟩
    | .escape (.bytes _ _) => .error ⟨position, .invalidRange low low⟩
    | .escape (.byte b) => orderedRange position low b
    | .plain b =>
      if b = 0x5d then .ok (ByteSet.singleton low, 0)
      else if Ascii.isAscii b then orderedRange position low b
      else .error ⟨highPosition, .nonAsciiInClass⟩
  | _ => .ok (ByteSet.singleton low, 0)

/-- A named class inside brackets; the text starts with the colon in front of the name. -/
def className (position : Nat) (text : PatternText) : Except PatternError (ByteSet × Nat) :=
  let name := plainRun Ascii.isAlpha (text.drop 1)
  let rest := text.drop (name.length + 1)
  if startsWith 0x3a rest && startsWith 0x5d (rest.drop 1) then
    match namedClass? (asciiText name) with
    | some s => .ok (s, name.length + 3)
    | none => .error ⟨position, .unknownNamedClass (asciiText name)⟩
  else .error ⟨position, .unclosedClass⟩

/-- One item of a class: its bytes, and how many of the characters behind the first it takes. -/
def classItem (position : Nat) (c : PatternChar) (rest : PatternText) :
    Except PatternError (ByteSet × Nat) :=
  match c with
  | .faulty fault => .error ⟨position, fault⟩
  | .escape (.bytes _ s) => .ok (s, 0)
  | .escape (.byte b) => classRange position b rest
  | .plain b =>
    if b = 0x5b && startsWith 0x3a rest then className position rest
    else if Ascii.isAscii b then classRange position b rest
    else .error ⟨position, .nonAsciiInClass⟩

/-- The items of a class that was opened at `start`, up to the closing bracket, added to `s`.  The
first item may be a closing bracket itself.  Of the characters, `skip` belong to the item before;
`taken` counts those that have been passed. -/
def classItems (start : Nat) (skip : Nat) (first : Bool) (s : ByteSet) (taken : Nat) :
    PatternText → Except PatternError (ByteSet × Nat)
  | [] => .error ⟨start, .unclosedClass⟩
  | (position, c) :: rest =>
    match skip with
    | skip + 1 => classItems start skip first s (taken + 1) rest
    | 0 =>
      if !first && c.isPlain (· == 0x5d) then .ok (s, taken + 1)
      else
        match classItem position c rest with
        | .error e => .error e
        | .ok (item, n) => classItems start n false (s.union item) (taken + 1) rest

/-- A class whose opening bracket stands at `start`. -/
def classAt (f : Flags) (start : Nat) (text : PatternText) : Except PatternError (ByteSet × Nat) :=
  let negated := startsWith 0x5e text
  match classItems start (if negated then 1 else 0) true ByteSet.empty 0 text with
  | .error e => .error e
  | .ok (s, taken) =>
    let s := if f.ignoreCase then s.addAsciiCase else s
    let s := if negated then s.complement else s
    if s.isEmpty then .error ⟨start, .emptyClass⟩ else .ok (s, taken)

/-! ### Quoted strings -/

/-- The sets of a quoted string that was opened at `start`, up to the closing quote. -/
def textAt (f : Flags) (start : Nat) : PatternText → Except PatternError (List ByteSet × Nat)
  | [] => .error ⟨start, .unterminatedString⟩
  | (position, c) :: rest =>
    match c with
    | .faulty fault => .error ⟨position, fault⟩
    | .escape (.bytes letter _) => .error ⟨position, .invalidEscape letter⟩
    | .escape (.byte b) => (textAt f start rest).map fun (items, n) => (f.literal b :: items, n + 1)
    | .plain b =>
      if b = 0x22 then .ok ([], 1)
      else (textAt f start rest).map fun (items, n) => (f.literal b :: items, n + 1)

/-! ### Braces -/

/-- The number that decimal digits write. -/
def decimal (digits : List UInt8) : Nat :=
  digits.foldl (fun n d => 10 * n + (d.toNat - 0x30)) 0

/-- Bounds are in order when neither is above the greatest bound and the upper one is not below
the lower one. -/
def boundsInOrder (min : Nat) (max : Option Nat) : Bool :=
  min ≤ maxRepeat && match max with
    | none => true
    | some max => min ≤ max && max ≤ maxRepeat

/-- The bounds between braces, `none` when they are malformed, and the characters they take. -/
def boundsAt (text : PatternText) : Option (Nat × Option Nat) × Nat :=
  let low := plainRun Ascii.isDigit text
  let rest := text.drop low.length
  if startsWith 0x7d rest then
    let min := decimal low
    (if boundsInOrder min (some min) then some (min, some min) else none, low.length + 1)
  else if startsWith 0x2c rest then
    let high := plainRun Ascii.isDigit (rest.drop 1)
    let max := if high.isEmpty then none else some (decimal high)
    if startsWith 0x7d (rest.drop (high.length + 1)) then
      (if boundsInOrder (decimal low) max then some (decimal low, max) else none,
        low.length + high.length + 2)
    else (none, 0)
  else (none, 0)

/-- The bytes that a name of a pattern may start with. -/
def isNameStart (b : UInt8) : Bool := Ascii.isAlpha b || b == 0x5f

/-- The bytes that a reference may hold behind the first one. -/
def isNamePart (b : UInt8) : Bool := Ascii.isAlnum b || b == 0x5f || b == 0x2d

/-- A reference whose opening brace stands at `start`. -/
def referenceAt (start : Nat) (text : PatternText) : Lexeme × Nat :=
  let name := plainRun isNamePart text
  if startsWith 0x7d (text.drop name.length) then (.reference (asciiText name), name.length + 1)
  else (.malformed ⟨start, .unclosedReference⟩, 0)

/-- What an opening brace at `start` begins. -/
def braceAt (start : Nat) (text : PatternText) : Lexeme × Nat :=
  match text with
  | (_, c) :: _ =>
    if c.isPlain Ascii.isDigit then
      let (bounds, n) := boundsAt text
      (.quantifier bounds, n)
    else if c.isPlain isNameStart then referenceAt start text
    else (.malformed ⟨start, .nothingToRepeat⟩, 0)
  | [] => (.malformed ⟨start, .nothingToRepeat⟩, 0)

/-! ### All lexemes -/

/-- A lexeme from a reader that may fail. -/
def Lexeme.ofResult {α : Type} (make : α → Lexeme) : Except PatternError (α × Nat) → Lexeme × Nat
  | .ok (a, n) => (make a, n)
  | .error e => (.malformed e, 0)

/-- The lexeme that a plain byte begins, and how many of the characters behind it it takes. -/
def Lexeme.ofPlain (f : Flags) (start : Nat) (b : UInt8) (rest : PatternText) : Lexeme × Nat :=
  if b = 0x28 then
    (.opening, if startsWith 0x3f rest && startsWith 0x3a (rest.drop 1) then 2 else 0)
  else if b = 0x29 then (.closing, 0)
  else if b = 0x7c then (.bar, 0)
  else if b = 0x5e then (.caret, 0)
  else if b = 0x24 then (.dollar, 0)
  else if b = 0x2a then (.quantifier (some (0, none)), 0)
  else if b = 0x2b then (.quantifier (some (1, none)), 0)
  else if b = 0x3f then (.question, 0)
  else if b = 0x2e then (.set f.dot, 0)
  else if b = 0x5b then Lexeme.ofResult .set (classAt f start rest)
  else if b = 0x22 then Lexeme.ofResult .text (textAt f start rest)
  else if b = 0x7b then braceAt start rest
  else (.set (f.literal b), 0)

/-- The lexeme that a character begins, and how many of the characters behind it it takes. -/
def Lexeme.read (f : Flags) (start : Nat) (c : PatternChar) (rest : PatternText) : Lexeme × Nat :=
  match c with
  | .faulty fault => (.malformed ⟨start, fault⟩, 0)
  | .escape (.bytes _ s) => (.set s, 0)
  | .escape (.byte b) => (.set (f.literal b), 0)
  | .plain b => Lexeme.ofPlain f start b rest

/-- The lexemes of the characters behind the first `skip` ones, which belong to the lexeme
before.  Nothing is read behind a malformed lexeme. -/
def lexemesAfter (f : Flags) (skip : Nat) : PatternText → List (Nat × Lexeme)
  | [] => []
  | (position, c) :: rest =>
    match skip with
    | skip + 1 => lexemesAfter f skip rest
    | 0 =>
      match Lexeme.read f position c rest with
      | (.malformed e, _) => [(position, .malformed e)]
      | (lexeme, n) => (position, lexeme) :: lexemesAfter f n rest

/-- The lexemes of a pattern with their byte offsets. -/
def lexemes (f : Flags) (pattern : List UInt8) : List (Nat × Lexeme) :=
  lexemesAfter f 0 (patternChars pattern)

end FrontEnd
