import Std.Data.TreeMap

/-!
# Tables of names

Names are kept in the order in which they were first entered.  The position of a name never
changes, so it serves as the name's number.

## Main Definitions

* `NameList` — different names in the order of their entry
* `NameList.indexOf?`, `NameList.get?` — the position of a name, and the name at a position
* `NameTable` — names with their values
* `NameTable.get?` — the value of a name
* `NameTable.put` — sets the value of a name
* `NameTable.declare` — enters a name unless it is there
* `narrow16` — the low 16 bits of a number, the width of a handle

## Main Statements

* `NameList.indexOf?_eq_some_iff`, `NameList.indexOf?_eq_none_iff` — looking up a name finds its
  only position
* `NameTable.get?_put` — looking up a name gives the value that was put last
-/

namespace FrontEnd

/-- Different names in the order of their entry. -/
structure NameList where
  /-- The position of each name. -/
  positions : Std.TreeMap String Nat
  /-- The names by position. -/
  entries : Array String
  /-- The two agree, so no name is entered twice. -/
  positions_iff : ∀ (name : String) (i : Nat), positions[name]? = some i ↔ entries[i]? = some name

namespace NameList

/-- The list without names. -/
def empty : NameList := ⟨∅, #[], by simp⟩

/-- Number of names. -/
def size (l : NameList) : Nat := l.entries.size

/-- The names in the order of their entry. -/
def toList (l : NameList) : List String := l.entries.toList

/-- The position of a name. -/
def indexOf? (l : NameList) (name : String) : Option Nat := l.positions[name]?

/-- The name at a position. -/
def get? (l : NameList) (i : Nat) : Option String := l.entries[i]?

/-- Whether a name has been entered. -/
def contains (l : NameList) (name : String) : Bool := (l.indexOf? name).isSome

theorem indexOf?_eq_some_iff {l : NameList} {name : String} {i : Nat} :
    l.indexOf? name = some i ↔ l.get? i = some name := l.positions_iff name i

theorem indexOf?_eq_none_iff {l : NameList} {name : String} :
    l.indexOf? name = none ↔ name ∉ l.toList := by
  rw [Option.eq_none_iff_forall_ne_some, toList, Array.mem_toList_iff, Array.mem_iff_getElem?,
    not_exists]
  exact forall_congr' fun i => not_congr indexOf?_eq_some_iff

/-- Enters a name at the end. -/
def push (l : NameList) (name : String) (h : l.indexOf? name = none) : NameList where
  positions := l.positions.insert name l.entries.size
  entries := l.entries.push name
  positions_iff other i := by
    have fresh : l.positions[name]? = none := h
    have absent : l.entries[i]? ≠ some name := fun hi => by
      rw [(l.positions_iff name i).2 hi] at fresh
      cases fresh
    rw [Std.TreeMap.getElem?_insert, Array.getElem?_push]
    by_cases hi : i = l.entries.size <;> by_cases hn : name = other
    · subst hn
      simp [hi]
    · have : l.entries[i]? = none := by simp [hi]
      simp [hi, hn, l.positions_iff]
    · subst hn
      simp only [Std.LawfulEqCmp.compare_eq_iff_eq, if_true, hi, if_false, absent, iff_false]
      exact fun e => hi (Option.some.inj e).symm
    · simp [hi, hn, l.positions_iff]

/-- Enters a name at the end, unless it is there. -/
def add (l : NameList) (name : String) : NameList :=
  match h : l.indexOf? name with
  | some _ => l
  | none => l.push name h

@[simp] theorem toList_empty : empty.toList = [] := rfl

@[simp] theorem toList_push {l : NameList} {name : String} {h : l.indexOf? name = none} :
    (l.push name h).toList = l.toList ++ [name] := by
  simp [push, toList]

theorem indexOf?_push {l : NameList} {name other : String} {h : l.indexOf? name = none} :
    (l.push name h).indexOf? other = if name = other then some l.size else l.indexOf? other := by
  simp [indexOf?, push, size, Std.TreeMap.getElem?_insert]

theorem lt_size_of_indexOf? {l : NameList} {name : String} {i : Nat}
    (h : l.indexOf? name = some i) : i < l.size := by
  obtain ⟨hi, -⟩ := Array.getElem?_eq_some_iff.1 (indexOf?_eq_some_iff.1 h)
  exact hi

theorem eq_of_indexOf? {l : NameList} {name other : String} {i : Nat}
    (h : l.indexOf? name = some i) (h' : l.indexOf? other = some i) : name = other := by
  have hi := indexOf?_eq_some_iff.1 h
  rw [indexOf?_eq_some_iff.1 h'] at hi
  exact (Option.some.inj hi).symm

theorem toList_add {l : NameList} {name : String} :
    (l.add name).toList = if name ∈ l.toList then l.toList else l.toList ++ [name] := by
  unfold add
  split
  next i h =>
    rw [if_pos]
    exact Decidable.byContradiction fun absent => by
      rw [indexOf?_eq_none_iff.2 absent] at h
      cases h
  next h => rw [if_neg (indexOf?_eq_none_iff.1 h), toList_push]

end NameList

/-- Names with their values, in the order of their entry. -/
structure NameTable (β : Type) where
  /-- The names. -/
  names : NameList
  /-- The value of each name, at the position of the name. -/
  values : Array β
  /-- Each name has a value. -/
  size_values : values.size = names.size

namespace NameTable

variable {β : Type}

/-- The table without names. -/
def empty : NameTable β := ⟨NameList.empty, #[], rfl⟩

/-- Number of names. -/
def size (table : NameTable β) : Nat := table.names.size

/-- The names with their values in the order of their entry. -/
def toList (table : NameTable β) : List (String × β) := table.names.toList.zip table.values.toList

/-- The position of a name. -/
def indexOf? (table : NameTable β) (name : String) : Option Nat := table.names.indexOf? name

/-- The value of a name. -/
def get? (table : NameTable β) (name : String) : Option β :=
  (table.indexOf? name).bind fun i => table.values[i]?

/-- Whether a name has been entered. -/
def has (table : NameTable β) (name : String) : Bool := table.names.contains name

/-- The table with another value at a position. -/
def setAt (table : NameTable β) (i : Nat) (value : β) : NameTable β :=
  ⟨table.names, table.values.setIfInBounds i value, by simp [table.size_values]⟩

/-- Enters a name with its value at the end. -/
def push (table : NameTable β) (name : String) (value : β) (h : table.indexOf? name = none) :
    NameTable β :=
  ⟨table.names.push name h, table.values.push value, by
    simp [table.size_values, NameList.push, NameList.size]⟩

/-- Sets the value of a name: in its place when it is there, otherwise at the end. -/
def put (table : NameTable β) (name : String) (value : β) : NameTable β :=
  match h : table.indexOf? name with
  | some i => table.setAt i value
  | none => table.push name value h

/-- Enters a name at the end; a name that is there keeps its value. -/
def declare (table : NameTable β) (name : String) (value : β) : NameTable β :=
  match h : table.indexOf? name with
  | some _ => table
  | none => table.push name value h

/-- The table of some names with their values, of which the first one counts. -/
def ofList (entries : List (String × β)) : NameTable β :=
  entries.foldl (fun table (name, value) => table.declare name value) empty

theorem get?_setAt {table : NameTable β} {name other : String} {i : Nat} {value : β}
    (h : table.indexOf? name = some i) :
    (table.setAt i value).get? other = if name = other then some value else table.get? other := by
  have hi : i < table.values.size := table.size_values ▸ NameList.lt_size_of_indexOf? h
  simp only [get?, setAt, indexOf?] at h ⊢
  by_cases hn : name = other
  · subst hn
    simp [h, hi]
  · cases h' : table.names.indexOf? other with
    | none => simp [hn]
    | some j =>
      have hij : i ≠ j := fun e => hn (NameList.eq_of_indexOf? h (e ▸ h'))
      simp [hn, Array.getElem?_setIfInBounds_ne hij]

theorem get?_push {table : NameTable β} {name other : String} {value : β}
    {h : table.indexOf? name = none} :
    (table.push name value h).get? other =
      if name = other then some value else table.get? other := by
  have hp : (table.push name value h).indexOf? other =
      if name = other then some table.names.size else table.indexOf? other :=
    NameList.indexOf?_push (h := h)
  rw [get?, hp, get?]
  by_cases hn : name = other
  · simp [hn, push, ← table.size_values]
  · cases h' : table.indexOf? other with
    | none => simp [hn]
    | some j =>
      have hj : j < table.values.size := table.size_values ▸ NameList.lt_size_of_indexOf? h'
      simp [hn, push, Array.getElem?_push, Nat.ne_of_lt hj]

theorem get?_put {table : NameTable β} {name other : String} {value : β} :
    (table.put name value).get? other =
      if name = other then some value else table.get? other := by
  unfold put
  split
  next i h => exact get?_setAt h
  next h => exact get?_push

end NameTable

/-- The low 16 bits of a number.  Handles of lexer states, nonterminals and precedence levels are
numbers of 16 bits, and the number that a table gives is cut to this width. -/
def narrow16 (n : Nat) : Nat := n % 65536

end FrontEnd
