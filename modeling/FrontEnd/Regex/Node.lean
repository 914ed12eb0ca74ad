import FrontEnd.ByteSet.Ranges

/-!
# Regular expressions

Trees of regular expressions over bytes, as patterns are read into and automata are built from.

## Main Definitions

* `Node` — a regular expression
* `Node.concatOf`, `Node.altOf` — constructors that leave out a list of one item
* `Node.nullable` — whether the empty string matches
* `Node.display` — a readable form
* `Regex` — an expression with the anchors of its pattern
-/

namespace FrontEnd

/-- A regular expression over bytes. -/
inductive Node where
  /-- Matches the empty string. -/
  | empty
  /-- Matches one byte of the set. -/
  | set (s : ByteSet)
  /-- Matches the items one after the other. -/
  | concat (items : List Node)
  /-- Matches one of the items. -/
  | alt (items : List Node)
  /-- Matches between `min` and `max` copies of the node, without an upper bound for `none`. -/
  | repeated (node : Node) (min : Nat) (max : Option Nat)
deriving Inhabited

namespace Node

/-- Matches one byte. -/
def byte (b : UInt8) : Node := .set (ByteSet.singleton b)

/-- The items in a row: nothing for no item, the item itself for a single one. -/
def concatOf : List Node → Node
  | [] => .empty
  | [item] => item
  | items => .concat items

/-- The choice between items: nothing for no item, the item itself for a single one. -/
def altOf : List Node → Node
  | [] => .empty
  | [item] => item
  | items => .alt items

/-- Matches a byte string. -/
def ofBytes (bytes : List UInt8) : Node := concatOf (bytes.map byte)

mutual

/-- Whether the expression matches the empty string. -/
def nullable : Node → Bool
  | .empty => true
  | .set _ => false
  | .concat items => allNullable items
  | .alt items => anyNullable items
  | .repeated node min _ => min == 0 || nullable node

/-- Whether all the items match the empty string. -/
def allNullable : List Node → Bool
  | [] => true
  | item :: items => nullable item && allNullable items

/-- Whether one of the items matches the empty string. -/
def anyNullable : List Node → Bool
  | [] => false
  | item :: items => nullable item || anyNullable items

end

/-- A range inside a bracket: two neighbours are written without the dash. -/
def displayRange (r : ByteRange) : String :=
  if r.first = r.last then escapeByte r.first
  else if r.first.toNat + 1 = r.last.toNat then escapeByte r.first ++ escapeByte r.last
  else escapeByte r.first ++ "-" ++ escapeByte r.last

/-- A set: a single byte without brackets, the full set as a dot. -/
def displaySet (s : ByteSet) : String :=
  match s.toList with
  | [b] => escapeByte b
  | _ =>
    if s = ByteSet.full then "."
    else "[" ++ String.join (s.ranges.map displayRange) ++ "]"

/-- The quantifier of a repetition in its shortest form. -/
def displayBounds (min : Nat) (max : Option Nat) : String :=
  match min, max with
  | 0, none => "*"
  | 1, none => "+"
  | 0, some 1 => "?"
  | m, none => "\x7b" ++ toString m ++ ",\x7d"
  | m, some n =>
    if m = n then "\x7b" ++ toString m ++ "\x7d"
    else "\x7b" ++ toString m ++ "," ++ toString n ++ "\x7d"

/-- Whether a node is put in parentheses in front of a quantifier. -/
def needsParens : Node → Bool
  | .concat _ => true
  | .repeated .. => true
  | _ => false

mutual

/-- A readable form of the expression. -/
def display : Node → String
  | .empty => "()"
  | .set s => displaySet s
  | .concat items => String.join (displayAll items)
  | .alt items => "(" ++ String.intercalate "|" (displayAll items) ++ ")"
  | .repeated node min max =>
    (if needsParens node then "(" ++ display node ++ ")" else display node) ++
      displayBounds min max

/-- The readable forms of some expressions. -/
def displayAll : List Node → List String
  | [] => []
  | item :: items => display item :: displayAll items

end

end Node

/-- A pattern that has been read: its expression and its anchors. -/
structure Regex where
  node : Node
  /-- The match must start at the beginning of a line. -/
  atLineStart : Bool
  /-- The match must end at the end of a line. -/
  atLineEnd : Bool

namespace Regex

/-- Whether the expression matches the empty string. -/
def nullable (r : Regex) : Bool := r.node.nullable

/-- A readable form of the pattern. -/
def display (r : Regex) : String :=
  (if r.atLineStart then "^" else "") ++ r.node.display ++ (if r.atLineEnd then "$" else "")

end Regex

end FrontEnd
