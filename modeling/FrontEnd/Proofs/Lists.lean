import Mathlib.Data.List.Forall2
import Mathlib.Data.List.Nodup
import Mathlib.Data.List.Perm.Subperm

/-!
# Lists

What proofs about several parts of this library need of lists: the entries of lists that are related
entry by entry, the first entry with a property, and lists without repetitions.

## Main Definitions

* `FirstWith` — the first entry with a property, and its place

## Main Statements

* `exists_getElem?_of_forall₂` — entries of related lists at one place are related
* `FirstWith.unique` — a list has one first entry with a property
* `eraseDups_of_nodup` — a list without repetitions keeps all of its entries
-/

namespace FrontEnd

variable {α β : Type}

/-! ### Related lists

Lists are related element by element when a loop over the first one makes the second one.  What is
known of a place, or of a member, carries over. -/

section Related

variable {R : α → β → Prop} {l : List α} {m : List β}

/-- Entries of related lists at one place are related. -/
theorem exists_getElem?_of_forall₂ (h : List.Forall₂ R l m) {i : Nat} {a : α}
    (ha : l[i]? = some a) : ∃ b, m[i]? = some b ∧ R a b := by
  induction h generalizing i with
  | nil => cases ha
  | cons hr _ ih =>
    cases i with
    | zero =>
      obtain rfl := Option.some.inj ha
      exact ⟨_, rfl, hr⟩
    | succ i => exact ih ha

/-- A member of one list has its counterpart in the other one. -/
theorem exists_mem_of_forall₂ (h : List.Forall₂ R l m) {a : α} (ha : a ∈ l) : ∃ b ∈ m, R a b := by
  obtain ⟨i, hi⟩ := List.mem_iff_getElem?.1 ha
  obtain ⟨b, hb, hr⟩ := exists_getElem?_of_forall₂ h hi
  exact ⟨b, List.mem_of_getElem? hb, hr⟩

end Related

/-! ### First entries

Searches that stop at the first entry with a property are specified by the property itself, so that
two of them can be compared.  There is at most one such entry. -/

/-- The first entry with a property, and its place. -/
def FirstWith (P : α → Prop) (l : List α) (i : Nat) (a : α) : Prop :=
  l[i]? = some a ∧ P a ∧ ∀ b ∈ l.take i, ¬ P b

section First

variable {P : α → Prop} {l : List α} {a b : α} {i j : Nat}

/-- The first entry with a property is a member. -/
theorem FirstWith.mem (h : FirstWith P l i a) : a ∈ l := List.mem_of_getElem? h.1

/-- The head is the first entry with a property that it has. -/
theorem FirstWith.head (ha : P a) : FirstWith P (a :: l) 0 a := ⟨rfl, ha, by simp⟩

theorem FirstWith.tail (ha : ¬ P a) (h : FirstWith P l i b) : FirstWith P (a :: l) (i + 1) b := by
  refine ⟨h.1, h.2.1, ?_⟩
  rw [List.take_succ_cons, List.forall_mem_cons]
  exact ⟨ha, h.2.2⟩

/-- An entry with the property does not stand in front of the first one. -/
theorem FirstWith.not_lt (h : FirstWith P l i a) (h' : FirstWith P l j b) : ¬ j < i := by
  intro hlt
  refine h.2.2 b ?_ h'.2.1
  refine List.mem_of_getElem? (i := j) ?_
  rw [List.getElem?_take_of_lt hlt]
  exact h'.1

/-- There is one first entry: of two, none stands in front of the other. -/
theorem FirstWith.unique (h : FirstWith P l i a) (h' : FirstWith P l j b) : i = j ∧ a = b := by
  obtain rfl : i = j := Nat.le_antisymm (Nat.not_lt.1 (h.not_lt h')) (Nat.not_lt.1 (h'.not_lt h))
  exact ⟨rfl, Option.some.inj (h.1.symm.trans h'.1)⟩

end First

/-! ### Lists without repetitions

`List.eraseDups` keeps the first occurrences.  It numbers the keys of a table, the names of a
grammar and the groups of bytes, so what it does to an appended element is said here once. -/

section Distinct

variable [BEq α] [LawfulBEq α]

/-- No two elements are left that are equal.  The recursion is on the list without its head, which
is shorter also when copies of the head have been filtered. -/
theorem nodup_eraseDups : ∀ l : List α, l.eraseDups.Nodup
  | [] => by simp
  | a :: as => by
    rw [List.eraseDups_cons, List.nodup_cons]
    exact ⟨by simp, nodup_eraseDups _⟩
termination_by l => l.length
decreasing_by exact Nat.lt_succ_of_le (List.length_filter_le _ _)

theorem length_eraseDups_le (l : List α) : l.eraseDups.length ≤ l.length :=
  (List.Nodup.subperm (nodup_eraseDups l) fun _ ha => List.mem_eraseDups.1 ha).length_le

/-- A list without repetitions stays as it is. -/
theorem eraseDups_of_nodup {l : List α} (h : l.Nodup) : l.eraseDups = l := by
  induction l with
  | nil => rfl
  | cons a l ih =>
    obtain ⟨ha, hl⟩ := List.nodup_cons.1 h
    have hfilter : l.filter (fun b => !b == a) = l := by
      refine List.filter_eq_self.2 fun b hb => ?_
      have hne : b ≠ a := fun heq => ha (heq ▸ hb)
      simpa using hne
    rw [List.eraseDups_cons, hfilter, ih hl]

/-- An entry that is there already adds nothing. -/
theorem eraseDups_append_cons_of_mem {l m : List α} {a : α} (ha : a ∈ l) :
    (l ++ a :: m).eraseDups = (l ++ m).eraseDups := by
  rw [List.eraseDups_append, List.eraseDups_append, List.removeAll, List.removeAll,
    List.filter_cons_of_neg (by simpa using ha)]

/-- Entries in front that are there several times add nothing to those behind. -/
theorem eraseDups_append_left (l m : List α) :
    (l.eraseDups ++ m).eraseDups = (l ++ m).eraseDups := by
  have hremove : m.removeAll l.eraseDups = m.removeAll l := by
    refine List.filter_congr fun a _ => ?_
    simp [List.elem_eq_contains, List.mem_eraseDups]
  rw [List.eraseDups_append, List.eraseDups_append, eraseDups_of_nodup (nodup_eraseDups l), hremove]

/-- Of an entry that repeats, one is kept. -/
theorem eraseDups_eq_singleton {l : List α} {a : α} (hl : l ≠ []) (h : ∀ b ∈ l, b = a) :
    l.eraseDups = [a] := by
  cases l with
  | nil => exact absurd rfl hl
  | cons b l =>
    obtain ⟨rfl, hrest⟩ := List.forall_mem_cons.1 h
    have hnone : l.filter (fun c => !c == b) = [] :=
      List.filter_eq_nil_iff.2 fun c hc => by simp [hrest c hc]
    rw [List.eraseDups_cons, hnone, List.eraseDups_nil]

end Distinct

end FrontEnd
