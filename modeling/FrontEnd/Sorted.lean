/-!
# Sorted lists as sets

Small sets whose order is shown in answers, such as the terminals that may follow an item, are
lists kept in ascending order without repetitions.

## Main Definitions

* `Sorted.insert`, `Sorted.insertAll` — a set with one more element, or those of a list
* `Sorted.union` — the elements of either set
* `Sorted.ofList` — the set of the elements of a list

## Main Statements

* `Sorted.mem_insert`, `Sorted.mem_union`, `Sorted.mem_ofList` — membership, whatever the order
* `Sorted.union_eq_insertAll` — the union is the insertion of one element after the other
-/

namespace FrontEnd

namespace Sorted

variable {α : Type} (before : α → α → Bool)

/-- Puts an element in front of the first one that it comes before. -/
def place (a : α) : List α → List α
  | [] => [a]
  | b :: l => if before a b then a :: b :: l else b :: place a l

/-- A set with one more element; a set that has it already is unchanged. -/
def insert [DecidableEq α] (a : α) (l : List α) : List α :=
  if a ∈ l then l else place before a l

/-- A set with the elements of a list. -/
def insertAll [DecidableEq α] (l extra : List α) : List α :=
  extra.foldl (fun l a => insert before a l) l

/-- The elements of either set.  Most unions add nothing, which is seen in one pass. -/
def union [DecidableEq α] (l extra : List α) : List α :=
  if extra.isSublist l then l else insertAll before l extra

/-- The set of the elements of a list. -/
def ofList [DecidableEq α] (l : List α) : List α := insertAll before [] l

theorem mem_place {a x : α} {l : List α} : x ∈ place before a l ↔ x = a ∨ x ∈ l := by
  induction l with
  | nil => simp [place]
  | cons b l ih =>
    by_cases h : before a b
    · simp [place, h]
    · simp [place, h, ih]
      constructor
      · rintro (h | h | h) <;> simp [h]
      · rintro (h | h | h) <;> simp [h]

theorem mem_insert [DecidableEq α] {a x : α} {l : List α} :
    x ∈ insert before a l ↔ x = a ∨ x ∈ l := by
  by_cases h : a ∈ l
  · simp only [insert, h, if_true]
    constructor
    · exact Or.inr
    · rintro (rfl | h') <;> assumption
  · simp [insert, h, mem_place]

theorem mem_insertAll [DecidableEq α] {x : α} {l extra : List α} :
    x ∈ insertAll before l extra ↔ x ∈ l ∨ x ∈ extra := by
  unfold insertAll
  induction extra generalizing l with
  | nil => simp
  | cons a extra ih =>
    rw [List.foldl_cons, ih, mem_insert]
    simp only [List.mem_cons]
    constructor
    · rintro ((h | h) | h) <;> simp [h]
    · rintro (h | h | h) <;> simp [h]

/-- Adding elements that a set has already leaves it unchanged. -/
theorem insertAll_eq_self [DecidableEq α] {l extra : List α} (h : ∀ a ∈ extra, a ∈ l) :
    insertAll before l extra = l := by
  unfold insertAll
  induction extra with
  | nil => rfl
  | cons a extra ih =>
    have ha : insert before a l = l := by simp [insert, h a (by simp)]
    rw [List.foldl_cons, ha]
    exact ih fun b hb => h b (by simp [hb])

/-- The union is the same without the look whether it adds anything. -/
theorem union_eq_insertAll [DecidableEq α] {l extra : List α} :
    union before l extra = insertAll before l extra := by
  unfold union
  split
  next h =>
    have hsub := List.isSublist_iff_sublist.1 h
    exact (insertAll_eq_self before fun a ha => hsub.mem ha).symm
  next => rfl

theorem mem_union [DecidableEq α] {x : α} {l extra : List α} :
    x ∈ union before l extra ↔ x ∈ l ∨ x ∈ extra := by
  rw [union_eq_insertAll, mem_insertAll]

theorem mem_ofList [DecidableEq α] {x : α} {l : List α} : x ∈ ofList before l ↔ x ∈ l := by
  simp [ofList, mem_insertAll]

end Sorted

end FrontEnd
