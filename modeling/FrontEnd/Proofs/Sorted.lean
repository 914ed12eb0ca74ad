import FrontEnd.Sorted
import Mathlib.Data.List.Pairwise
import Mathlib.Data.List.Nodup

/-!
# Sorted lists are canonical

The operations on sorted lists keep them sorted and without repetitions, so two sets with the same
elements are the same list.

## Main Definitions

* `Sorted.Order` — what makes an order of elements strict and total
* `Sorted.IsSorted` — each element comes before those behind it

## Main Statements

* `Sorted.isSorted_insert` — sets stay sorted
* `Sorted.IsSorted.ext` — a sorted list is determined by its elements
* `Sorted.union_eq_or_length_lt` — a union is the set itself, or has more elements
-/

namespace FrontEnd

namespace Sorted

variable {α : Type} {before : α → α → Bool}

/-- The order is strict and total. -/
structure Order (before : α → α → Bool) : Prop where
  trans : ∀ a b c, before a b = true → before b c = true → before a c = true
  asymm : ∀ a b, before a b = true → before b a = false
  total : ∀ a b, a ≠ b → before a b = true ∨ before b a = true

/-- Each element comes before those behind it. -/
def IsSorted (before : α → α → Bool) (l : List α) : Prop := l.Pairwise (before · · = true)

/-- Nothing stands in front of itself, so a sorted list has no repetitions. -/
theorem IsSorted.nodup (h : Order before) {l : List α} (hl : IsSorted before l) : l.Nodup := by
  refine List.Pairwise.imp ?_ hl
  rintro a b hab rfl
  rw [h.asymm a a hab] at hab
  cases hab

/-- **A sorted list is determined by its elements.** -/
theorem IsSorted.ext (h : Order before) {l l' : List α} (hl : IsSorted before l)
    (hl' : IsSorted before l') (hmem : ∀ a, a ∈ l ↔ a ∈ l') : l = l' := by
  have hperm : l.Perm l' := (List.perm_ext_iff_of_nodup (hl.nodup h) (hl'.nodup h)).2 hmem
  refine hperm.eq_of_pairwise ?_ hl hl'
  intro a b _ _ hab hba
  rw [h.asymm a b hab] at hba
  cases hba

/-- A new element is placed where it keeps the order: what stands in front of its place comes before
it, and it comes before the rest, since one of the two comes before the other. -/
theorem isSorted_place (h : Order before) {a : α} {l : List α} (hl : IsSorted before l)
    (ha : a ∉ l) : IsSorted before (place before a l) := by
  induction l with
  | nil => exact List.pairwise_singleton _ _
  | cons b l ih =>
    rw [List.mem_cons, not_or] at ha
    obtain ⟨hb, hrest⟩ := List.pairwise_cons.1 hl
    unfold place
    split
    · next hab =>
      refine List.pairwise_cons.2 ⟨?_, hl⟩
      intro c hc
      rcases List.mem_cons.1 hc with rfl | hc
      · exact hab
      · exact h.trans a b c hab (hb c hc)
    · next hab =>
      refine List.pairwise_cons.2 ⟨?_, ih hrest ha.2⟩
      intro c hc
      rcases (mem_place before).1 hc with rfl | hc
      · exact (h.total _ _ ha.1).resolve_left hab
      · exact hb c hc

/-- An element that is there already is not placed again. -/
theorem isSorted_insert [DecidableEq α] (h : Order before) {a : α} {l : List α}
    (hl : IsSorted before l) : IsSorted before (insert before a l) := by
  unfold insert
  split
  · exact hl
  · next ha => exact isSorted_place h hl ha

/-- One by one, all elements of a list are inserted in order. -/
theorem isSorted_insertAll [DecidableEq α] (h : Order before) {l : List α} (hl : IsSorted before l)
    (extra : List α) : IsSorted before (insertAll before l extra) :=
  List.foldlRecOn extra _ hl fun _ hfound _ _ => isSorted_insert h hfound

theorem isSorted_union [DecidableEq α] (h : Order before) {l : List α} (hl : IsSorted before l)
    (extra : List α) : IsSorted before (union before l extra) := by
  rw [union_eq_insertAll]
  exact isSorted_insertAll h hl extra

/-- Whatever the order of a list, the elements come out sorted. -/
theorem isSorted_ofList [DecidableEq α] (h : Order before) (l : List α) :
    IsSorted before (ofList before l) :=
  isSorted_insertAll h List.Pairwise.nil l

/-- Placing makes a list longer by one, also when the element has been there. -/
@[simp] theorem length_place {a : α} {l : List α} :
    (place before a l).length = l.length + 1 := by
  induction l with
  | nil => rfl
  | cons b l ih =>
    unfold place
    split
    · rfl
    · rw [List.length_cons, ih, List.length_cons]

/-- A new element is there once. -/
theorem nodup_place {a : α} {l : List α} (hl : l.Nodup) (ha : a ∉ l) :
    (place before a l).Nodup := by
  induction l with
  | nil => exact List.nodup_singleton a
  | cons b l ih =>
    rw [List.mem_cons, not_or] at ha
    obtain ⟨hb, hrest⟩ := List.nodup_cons.1 hl
    unfold place
    split
    · exact List.nodup_cons.2 ⟨List.not_mem_cons_of_ne_of_not_mem ha.1 ha.2, hl⟩
    · refine List.nodup_cons.2 ⟨?_, ih hrest ha.2⟩
      rw [mem_place, not_or]
      exact ⟨Ne.symm ha.1, hb⟩

variable [DecidableEq α]

/-- Insertion makes no repetitions, in any list and without a law for the order. -/
theorem nodup_insert {a : α} {l : List α} (hl : l.Nodup) : (insert before a l).Nodup := by
  unfold insert
  split
  · exact hl
  · next ha => exact nodup_place hl ha

theorem nodup_insertAll {l : List α} (hl : l.Nodup) (extra : List α) :
    (insertAll before l extra).Nodup := by
  unfold insertAll
  induction extra generalizing l with
  | nil => exact hl
  | cons a extra ih => exact ih (nodup_insert hl)

theorem nodup_union {l : List α} (hl : l.Nodup) (extra : List α) :
    (union before l extra).Nodup := by
  rw [union_eq_insertAll]
  exact nodup_insertAll hl extra

/-- An insertion changes nothing, or the list gets longer.  Rounds of insertions end for this
reason. -/
theorem insert_eq_or_length_lt (before : α → α → Bool) (a : α) (l : List α) :
    insert before a l = l ∨ l.length < (insert before a l).length := by
  unfold insert
  split
  · exact .inl rfl
  · exact .inr (by simp)

/-- Several insertions change nothing or make the list longer: once one of them has done so, the
others make it no shorter. -/
theorem insertAll_eq_or_length_lt (before : α → α → Bool) (l extra : List α) :
    insertAll before l extra = l ∨ l.length < (insertAll before l extra).length := by
  unfold insertAll
  induction extra generalizing l with
  | nil => exact .inl rfl
  | cons a extra ih =>
    rw [List.foldl_cons]
    rcases insert_eq_or_length_lt before a l with heq | hlt
    · rw [heq]
      exact ih l
    · rcases ih (insert before a l) with h | h
      · exact .inr (h.symm ▸ hlt)
      · exact .inr (Nat.lt_trans hlt h)

/-- **A union is the set itself, or it has more elements.** -/
theorem union_eq_or_length_lt (before : α → α → Bool) (l extra : List α) :
    union before l extra = l ∨ l.length < (union before l extra).length := by
  rw [union_eq_insertAll]
  exact insertAll_eq_or_length_lt before l extra

end Sorted

end FrontEnd
