import FrontEnd.Names
import FrontEnd.Regex.Lexeme
import FrontEnd.Regex.Node
import FrontEnd.Text.Utf8

/-!
# Reading patterns

The lexemes of a pattern are assembled to a tree.  Open groups are kept on a stack, and each
lexeme changes only the group that is open last.

## Main Definitions

* `OpenGroup` — the alternatives of a group that have been read
* `assemble` — the tree of some lexemes
* `NamedPatterns` — the patterns that others can refer to
* `expandReference` — the tree of a named pattern
* `Regex.parse` — reads a pattern

## Design Notes

A named pattern is read anew for every reference.  A name that is being expanded can not be
referred to again, so expansions are nested at most as deeply as there are names, and this number
bounds the recursion.
-/

namespace FrontEnd

/-- A group of which a part has been read. -/
structure OpenGroup where
  /-- The complete alternatives, the latest one first. -/
  alternatives : List Node
  /-- The items of the alternative that is being read, the latest one first. -/
  items : List Node

namespace OpenGroup

/-- The group of which nothing has been read. -/
def start : OpenGroup := ⟨[], []⟩

/-- The group with one more item. -/
def push (g : OpenGroup) (node : Node) : OpenGroup := { g with items := node :: g.items }

/-- The group at the start of its next alternative. -/
def nextAlternative (g : OpenGroup) : OpenGroup :=
  ⟨Node.concatOf g.items.reverse :: g.alternatives, []⟩

/-- The tree of the group when it is closed. -/
def close (g : OpenGroup) : Node := Node.altOf g.nextAlternative.alternatives.reverse

/-- Repeats the latest item. -/
def repeatLast (g : OpenGroup) (bounds : Option (Nat × Option Nat)) :
    Except PatternFault OpenGroup :=
  match g.items, bounds with
  | [], _ => .error .nothingToRepeat
  | _ :: _, none => .error .invalidQuantifier
  | item :: items, some (min, max) => .ok { g with items := .repeated item min max :: items }

end OpenGroup

/-- A quantifier with a question mark behind it would be lazy, which is refused. -/
def checkGreedy : List (Nat × Lexeme) → Except PatternError Unit
  | (position, .question) :: _ => .error ⟨position, .lazyQuantifier⟩
  | _ => .ok ()

/-- Assembles lexemes to a tree and tells whether they end with the anchor `$`.  Anchors are
allowed only in a pattern at the top.  The groups around the current one are given with the
offset at which the next inner one was opened. -/
def assemble (top : Bool) (expand : String → Except PatternFault Node) :
    List (Nat × Lexeme) → List (Nat × OpenGroup) → OpenGroup → Except PatternError (Node × Bool)
  | [], [], group => .ok (group.close, false)
  | [], (position, _) :: _, _ => .error ⟨position, .unbalancedParen⟩
  | (position, lexeme) :: rest, outer, group =>
    match lexeme with
    | .malformed e => .error e
    | .set s => assemble top expand rest outer (group.push (.set s))
    | .text items =>
      assemble top expand rest outer (group.push (Node.concatOf (items.map Node.set)))
    | .reference name =>
      match expand name with
      | .error fault => .error ⟨position, fault⟩
      | .ok node => assemble top expand rest outer (group.push node)
    | .opening => assemble top expand rest ((position, group) :: outer) OpenGroup.start
    | .closing =>
      match outer with
      | [] => .error ⟨position, .unbalancedParen⟩
      | (_, around) :: outer => assemble top expand rest outer (around.push group.close)
    | .bar => assemble top expand rest outer group.nextAlternative
    | .caret => .error ⟨position, .misplacedAnchor 0x5e⟩
    | .dollar =>
      if top && outer.isEmpty && rest.isEmpty then .ok (group.close, true)
      else .error ⟨position, .misplacedAnchor 0x24⟩
    | .question =>
      match group.repeatLast (some (0, some 1)) with
      | .error fault => .error ⟨position, fault⟩
      | .ok group =>
        match checkGreedy rest with
        | .error e => .error e
        | .ok () => assemble top expand rest outer group
    | .quantifier bounds =>
      match group.repeatLast bounds with
      | .error fault => .error ⟨position, fault⟩
      | .ok group =>
        match checkGreedy rest with
        | .error e => .error e
        | .ok () => assemble top expand rest outer group

/-- The patterns that others can refer to by name. -/
abbrev NamedPatterns := NameTable String

/-- The fault of a reference to a pattern whose body has an error.  A fault that comes from the
body of another named pattern keeps its place. -/
def PatternFault.ofBody (name : String) (e : PatternError) : PatternFault :=
  match e.fault with
  | .recursiveReference inner => .recursiveReference inner
  | .inBody inner position fault => .inBody inner position fault
  | fault => .inBody name e.position fault

/-- The tree of a named pattern; `active` holds the names that are being expanded. -/
def expandReference (f : Flags) (named : NamedPatterns) (bound : Nat) (active : List String)
    (name : String) : Except PatternFault Node :=
  match named.get? name with
  | none => .error (.unknownReference name)
  | some body =>
    if active.contains name then .error (.recursiveReference name)
    else
      match bound with
      | 0 => .error (.recursiveReference name)
      | bound + 1 =>
        match assemble false (expandReference f named bound (name :: active))
            (lexemes f (bytesOf body)) [] OpenGroup.start with
        | .error e => .error (PatternFault.ofBody name e)
        | .ok (node, _) => .ok node

/-- Reads the bytes of a pattern. -/
def Regex.parseBytes (f : Flags) (named : NamedPatterns) (pattern : List UInt8) :
    Except PatternError Regex :=
  let expand := expandReference f named named.size []
  if pattern.isEmpty then .error ⟨0, .emptyPattern⟩
  else
    match lexemes f pattern with
    | (_, .caret) :: rest =>
      (assemble true expand rest [] OpenGroup.start).map fun (node, atEnd) => ⟨node, true, atEnd⟩
    | all =>
      (assemble true expand all [] OpenGroup.start).map fun (node, atEnd) => ⟨node, false, atEnd⟩

/-- Reads a pattern. -/
def Regex.parse (f : Flags) (named : NamedPatterns) (pattern : String) :
    Except PatternError Regex :=
  Regex.parseBytes f named (bytesOf pattern)

end FrontEnd
