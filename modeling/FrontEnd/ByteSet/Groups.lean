import FrontEnd.ByteSet.Basic

/-!
# Groups of bytes

Bytes that no set of a list tells apart behave alike in every automaton labelled with these sets.
They form a group, and the tables of the deterministic automaton have one column for each group.

## Main Definitions

* `ByteSet.signature` — which sets of a list hold a byte
* `ByteGroups` — a numbering of the groups
* `ByteGroups.ofSets` — the coarsest groups that no set of a list cuts
* `ByteGroups.sets`, `ByteGroups.representatives` — the bytes of each group, and its least byte

## Design Notes

Two bytes are in one group exactly when their signatures are equal, so the groups are the distinct
signatures, numbered in the order in which ascending bytes bring them up.
-/

namespace FrontEnd

/-- For each set of a list, whether it holds the byte. -/
def ByteSet.signature (sets : List ByteSet) (b : UInt8) : List Bool :=
  sets.map fun s => s.contains b

/-- The numbers of the elements of a list, where equal elements have the same number and new
numbers are given in ascending order. -/
def numberByFirst [BEq α] (l : List α) : List Nat :=
  let distinct := l.eraseDups
  l.map fun a => distinct.idxOf a

/-- A numbering of groups of bytes. -/
structure ByteGroups where
  /-- Group of each byte. -/
  table : Array Nat
  /-- Number of groups. -/
  count : Nat
deriving DecidableEq

namespace ByteGroups

/-- The coarsest groups that no set of the list cuts. -/
def ofSets (sets : List ByteSet) : ByteGroups :=
  let signatures := allBytes.map (ByteSet.signature sets.eraseDups)
  { table := (numberByFirst signatures).toArray
    count := signatures.eraseDups.length }

/-- The group of a byte. -/
def group (g : ByteGroups) (b : UInt8) : Nat := g.table.getD b.toNat 0

/-- The bytes of each group, in the order of their numbers. -/
def sets (g : ByteGroups) : List ByteSet :=
  (List.range g.count).map fun i => ByteSet.ofPred fun b => g.group b == i

/-- The least byte of each group, in the order of their numbers. -/
def representatives (g : ByteGroups) : List UInt8 :=
  (List.range g.count).map fun i => (allBytes.find? fun b => g.group b == i).getD 0

end ByteGroups

end FrontEnd
