import FrontEnd.Names
import Mathlib.Data.List.Nodup
import Mathlib.Tactic.Basic

/-!
# Resolving names

What the resolution of lexer definitions and of grammar definitions has in common: the numbers that
tables of names give, and results that may be faults.

## Main Statements

* `NameTable.get?_names_put` — entering a name keeps the positions of the others
* `exists_of_map_eq_ok` — a mapped result is a result

## Design Notes

A name list only grows at its end.  So the number of a name is the number of names in front of it, a
list is a prefix of what it becomes, and whatever is known of a number stays known.
-/

namespace FrontEnd

/-- A number with sixteen bits is not cut. -/
theorem narrow16_of_lt {n : Nat} (h : n < 65536) : narrow16 n = n := Nat.mod_eq_of_lt h

/-- Cutting a number to sixteen bits makes it no larger. -/
theorem narrow16_le (n : Nat) : narrow16 n ≤ n := Nat.mod_le n 65536

/-- A result that is read with a function comes from a result.  Here the function reads off what a
computation can be compared by. -/
theorem exists_of_map_eq_ok {ε α β : Type} {x : Except ε α} {f : α → β} {b : β}
    (h : x.map f = .ok b) : ∃ a, x = .ok a ∧ f a = b := by
  cases x with
  | error e => cases h
  | ok a => exact ⟨a, rfl, Except.ok.inj h⟩

/-- Reading a result leaves a failure as it is. -/
theorem error_of_map_eq_error {ε α β : Type} {x : Except ε α} {f : α → β} {e : ε}
    (h : x.map f = .error e) : x = .error e := by
  cases x with
  | error e' => exact congrArg Except.error (Except.error.inj h)
  | ok a => cases h

namespace NameList

/-- A new name at the end leaves the other ones in their places. -/
theorem get?_push {l : NameList} {name other : String} {i : Nat} (h : l.indexOf? name = none)
    (hi : l.get? i = some other) : (l.push name h).get? i = some other := by
  have hlt : i < l.entries.size := (Array.getElem?_eq_some_iff.1 hi).choose
  unfold get? push
  rw [Array.getElem?_push, if_neg (Nat.ne_of_lt hlt)]
  exact hi

/-- Another name than the first one is not in the first place. -/
theorem ne_zero_of_indexOf? {l : NameList} {name other : String} {i : Nat}
    (hzero : l.get? 0 = some other) (hne : name ≠ other) (h : l.indexOf? name = some i) :
    i ≠ 0 := by
  rintro rfl
  exact hne (eq_of_indexOf? h (indexOf?_eq_some_iff.2 hzero))

theorem length_toList (l : NameList) : l.toList.length = l.size := Array.length_toList

/-- Places can be looked up in the plain list. -/
theorem get?_eq (l : NameList) {i : Nat} : l.get? i = l.toList[i]? := Array.getElem?_toList.symm

/-- A name keeps its position when other names are entered behind. -/
theorem indexOf?_of_prefix {l m : NameList} (h : l.toList <+: m.toList) {name : String} {i : Nat}
    (hi : l.indexOf? name = some i) : m.indexOf? name = some i := by
  rw [indexOf?_eq_some_iff, get?_eq] at hi ⊢
  obtain ⟨rest, hrest⟩ := h
  obtain ⟨hlt, -⟩ := List.getElem?_eq_some_iff.1 hi
  rw [← hrest, List.getElem?_append_left hlt, hi]

/-- No name is entered twice. -/
theorem nodup_toList (l : NameList) : l.toList.Nodup := by
  rw [List.nodup_iff_getElem?_ne_getElem?]
  intro i j hlt hj heq
  have hname := List.getElem?_eq_getElem hj
  have hi := indexOf?_eq_some_iff.2 (l.get?_eq.trans (heq.trans hname))
  rw [indexOf?_eq_some_iff.2 (l.get?_eq.trans hname)] at hi
  exact Nat.ne_of_lt hlt (Option.some.inj hi).symm

end NameList

namespace NameTable

variable {β : Type} {table : NameTable β} {name other : String} {value : β} {i : Nat}

/-- A value that is put in for a name leaves all names in their places. -/
theorem get?_names_put (h : table.names.get? i = some other) :
    (table.put name value).names.get? i = some other := by
  unfold put
  split
  · exact h
  · next hname => exact NameList.get?_push hname h

/-- A name that is declared does not change the value of a name that is there. -/
theorem get?_declare_of_some {known : β} (h : table.get? other = some known) :
    (table.declare name value).get? other = some known := by
  unfold declare
  split
  · exact h
  · next hname =>
    rw [get?_push, if_neg, h]
    rintro rfl
    rw [get?, hname] at h
    cases h

/-- A new name stands behind the others. -/
theorem toList_names_push {h : table.indexOf? name = none} :
    (table.push name value h).names.toList = table.names.toList ++ [name] :=
  NameList.toList_push (h := h)

/-- A declaration puts a name behind the others, if it is new, and leaves them alone. -/
theorem names_prefix_declare (table : NameTable β) (name : String) (value : β) :
    table.names.toList <+: (table.declare name value).names.toList := by
  unfold declare
  split
  · exact List.prefix_refl _
  · rw [toList_names_push]
    exact List.prefix_append _ _

theorem names_prefix_put (table : NameTable β) (name : String) (value : β) :
    table.names.toList <+: (table.put name value).names.toList := by
  unfold put
  split
  · exact List.prefix_refl _
  · rw [toList_names_push]
    exact List.prefix_append _ _

theorem mem_names_declare (h : other ∈ (table.declare name value).names.toList) :
    other ∈ table.names.toList ∨ other = name := by
  unfold declare at h
  split at h
  · exact .inl h
  · simpa [toList_names_push] using h

theorem mem_names_put (h : other ∈ (table.put name value).names.toList) :
    other ∈ table.names.toList ∨ other = name := by
  unfold put at h
  split at h
  · exact .inl h
  · simpa [toList_names_push] using h

end NameTable

end FrontEnd
