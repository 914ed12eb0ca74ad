/-!
# Blanks

The two notions of blank space that texts are cut at: the Unicode property `White_Space`, around
the names of lexer states, and the ASCII blanks, between the names of a grammar.

## Main Definitions

* `isBlank` — the characters with the Unicode property `White_Space`
* `trimChars` — characters without the blanks at both ends
* `isAsciiBlank` — space, tab, line feed, form feed and carriage return
* `words` — the parts of a text between ASCII blanks
-/

namespace FrontEnd

/-- The characters with the Unicode property `White_Space`. -/
def isBlank (c : Char) : Bool :=
  let n := c.toNat
  (0x09 ≤ n && n ≤ 0x0d) || n == 0x20 || n == 0x85 || n == 0xa0 || n == 0x1680 ||
    (0x2000 ≤ n && n ≤ 0x200a) || n == 0x2028 || n == 0x2029 || n == 0x202f || n == 0x205f ||
    n == 0x3000

/-- The characters without the blanks at both ends. -/
def trimChars (cs : List Char) : List Char :=
  (((cs.dropWhile isBlank).reverse).dropWhile isBlank).reverse

/-- The blanks that separate names; the vertical tab is not one of them. -/
def isAsciiBlank (c : Char) : Bool :=
  c == ' ' || c == '\t' || c == '\n' || c == '\x0c' || c == '\r'

/-- Splits characters at every separator; the parts may be empty, and there is at least one. -/
def splitChars (separator : Char → Bool) : List Char → List (List Char)
  | [] => [[]]
  | c :: cs =>
    if separator c then [] :: splitChars separator cs
    else
      match splitChars separator cs with
      | part :: parts => (c :: part) :: parts
      | [] => [[c]]

/-- The parts of a text between ASCII blanks, none of them empty. -/
def words (text : String) : List String :=
  ((splitChars isAsciiBlank text.toList).filter (fun part => !part.isEmpty)).map String.ofList

end FrontEnd
