import FrontEnd.Proofs.Regex.Assembly
import FrontEnd.Proofs.Regex.Language

/-!
# Well-formed expressions

Patterns are read to expressions of a certain form: no set is empty, no list of items is shorter
than two, and the bounds of a repetition are in order and not too large.  Such an expression always
matches something.

## Main Definitions

* `Node.WellFormed` — the form of the expressions

## Main Statements

* `Node.WellFormed.exists_mem_language` — a well-formed expression matches some string
* `Flags.writes_nonempty` — the sets of a pattern are not empty
* `Regex.wellFormed_of_parse` — what a pattern is read to is well formed

## Design Notes

The form is what the assembly produces: `Node.concatOf` and `Node.altOf` make a list only of two
items or more, and bounds are checked when they are read.  That there is always a match is an
induction over the tree, where the only leaf that could fail is an empty set.
-/

namespace FrontEnd

/-- The form of expressions that patterns can be read to. -/
inductive Node.WellFormed : Node → Prop
  | empty : WellFormed .empty
  | set {s : ByteSet} : s.isEmpty = false → WellFormed (.set s)
  | concat {items : List Node} :
    2 ≤ items.length → (∀ item ∈ items, WellFormed item) → WellFormed (.concat items)
  | alt {items : List Node} :
    2 ≤ items.length → (∀ item ∈ items, WellFormed item) → WellFormed (.alt items)
  | repeated {node : Node} {min : Nat} {max : Option Nat} :
    WellFormed node → min ≤ maxRepeat → (∀ m ∈ max, min ≤ m ∧ m ≤ maxRepeat) →
      WellFormed (.repeated node min max)

/-- Bounds are in order when the lower one is not above the upper one, and none is too large. -/
theorem boundsInOrder_iff {min : Nat} {max : Option Nat} :
    boundsInOrder min max = true ↔ min ≤ maxRepeat ∧ ∀ m ∈ max, min ≤ m ∧ m ≤ maxRepeat := by
  cases max <;> simp [boundsInOrder]

/-! ### Sets

A set is empty when it holds no byte.  A pattern can not write such a set: an empty class is
refused. -/

namespace ByteSet

theorem isEmpty_eq_false_of_contains {s : ByteSet} {b : UInt8} (h : s.contains b = true) :
    s.isEmpty = false := by
  rw [isEmpty, beq_eq_false_iff_ne]
  rintro rfl
  rw [contains_empty] at h
  cases h

/-- A set that is not empty holds a byte. -/
theorem exists_contains {s : ByteSet} (h : s.isEmpty = false) : ∃ b, s.contains b = true := by
  by_contra hnone
  have hempty : s = empty := ext fun b => by
    rw [contains_empty, ← Bool.not_eq_true]
    exact fun hb => hnone ⟨b, hb⟩
  rw [hempty] at h
  cases h

end ByteSet

/-- A class of bytes with an escape letter has a byte. -/
theorem isEmpty_of_escapeClass? {letter : UInt8} {s : ByteSet} (h : escapeClass? letter = some s) :
    s.isEmpty = false := by
  have hdigit : digitSet.contains 0x30 = true := by simp [digitSet, Ascii.isDigit]
  have hnotDigit : digitSet.complement.contains 0x20 = true := by simp [digitSet, Ascii.isDigit]
  have hword : wordSet.contains 0x5f = true := by simp [wordSet]
  have hnotWord : wordSet.complement.contains 0x20 = true := by
    simp [wordSet, Ascii.isAlnum, Ascii.isAlpha, Ascii.isLower, Ascii.isUpper, Ascii.isDigit]
  have hspace : spaceSet.contains 0x20 = true := by rw [spaceSet, ByteSet.contains_ofList]; decide
  have hnotSpace : spaceSet.complement.contains 0x30 = true := by
    rw [ByteSet.contains_complement, spaceSet, ByteSet.contains_ofList]
    decide
  unfold escapeClass? at h
  split_ifs at h <;> cases h
  · exact ByteSet.isEmpty_eq_false_of_contains hdigit
  · exact ByteSet.isEmpty_eq_false_of_contains hnotDigit
  · exact ByteSet.isEmpty_eq_false_of_contains hword
  · exact ByteSet.isEmpty_eq_false_of_contains hnotWord
  · exact ByteSet.isEmpty_eq_false_of_contains hspace
  · exact ByteSet.isEmpty_eq_false_of_contains hnotSpace

theorem Flags.isEmpty_literal (f : Flags) (b : UInt8) : (f.literal b).isEmpty = false := by
  refine ByteSet.isEmpty_eq_false_of_contains (b := b) ?_
  unfold Flags.literal
  split <;> simp

theorem Flags.isEmpty_dot (f : Flags) : f.dot.isEmpty = false := by
  refine ByteSet.isEmpty_eq_false_of_contains (b := 0x20) ?_
  unfold Flags.dot
  dsimp only
  split <;> split <;> simp

/-! ### Languages

A match of a well-formed expression is put together from matches of its parts. -/

namespace Node

variable {items : List Node}

theorem exists_cons_cons (h : 2 ≤ items.length) : ∃ t u rest, items = t :: u :: rest := by
  obtain ⟨t, rest, rfl⟩ := List.exists_cons_of_length_pos (Nat.lt_of_lt_of_le Nat.zero_lt_two h)
  obtain ⟨u, rest, rfl⟩ := List.exists_cons_of_length_pos (Nat.le_of_succ_le_succ h)
  exact ⟨t, u, rest, rfl⟩

/-- Items that match something match something one after the other. -/
theorem exists_mem_languageOfAll (h : ∀ item ∈ items, ∃ w, w ∈ item.language) :
    ∃ w, w ∈ languageOfAll items := by
  induction items with
  | nil => exact ⟨[], rfl⟩
  | cons item items ih =>
    obtain ⟨u, hu⟩ := h item List.mem_cons_self
    obtain ⟨v, hv⟩ := ih fun i hi => h i (List.mem_cons_of_mem _ hi)
    exact ⟨u ++ v, Language.append_mem_mul hu hv⟩

/-- A language that has a string has one for each power. -/
theorem exists_mem_pow {l : Language UInt8} (h : ∃ w, w ∈ l) (n : Nat) : ∃ w, w ∈ l ^ n := by
  induction n with
  | zero => exact ⟨[], rfl⟩
  | succ n ih =>
    obtain ⟨u, hu⟩ := h
    obtain ⟨v, hv⟩ := ih
    exact ⟨u ++ v, by rw [pow_succ']; exact Language.append_mem_mul hu hv⟩

/-- **A well-formed expression matches some string.** -/
theorem WellFormed.exists_mem_language {t : Node} (h : t.WellFormed) : ∃ w, w ∈ t.language := by
  induction h with
  | empty => exact ⟨[], rfl⟩
  | set hs =>
    obtain ⟨b, hb⟩ := ByteSet.exists_contains hs
    exact ⟨[b], b, hb, rfl⟩
  | concat _ _ ih => exact exists_mem_languageOfAll ih
  | alt hlength _ ih =>
    obtain ⟨t, u, items, rfl⟩ := exists_cons_cons hlength
    obtain ⟨w, hw⟩ := ih t List.mem_cons_self
    exact ⟨w, .inl hw⟩
  | @repeated _ min _ _ _ _ ih =>
    obtain ⟨w, hw⟩ := exists_mem_pow ih min
    exact ⟨w, min, le_rfl, fun _ _ => Nat.le_max_left _ _, hw⟩

theorem WellFormed.concatOf (h : ∀ item ∈ items, WellFormed item) :
    (Node.concatOf items).WellFormed :=
  concatOf_cases .empty (fun hlength => .concat hlength h) h

theorem WellFormed.altOf (h : ∀ item ∈ items, WellFormed item) :
    (Node.altOf items).WellFormed :=
  altOf_cases .empty (fun hlength => .alt hlength h) h

end Node

/-! ### Patterns

Being well formed follows from the sets one by one, so that patterns are read to well-formed
expressions by the general statement about what patterns are read to. -/

/-- **The sets of a pattern are not empty.** -/
theorem Flags.writes_nonempty (f : Flags) : f.Writes fun s => s.isEmpty = false where
  literal := f.isEmpty_literal
  dot := f.isEmpty_dot
  escape := fun _ _ => isEmpty_of_escapeClass?
  bracket := fun _ _ _ _ h => (exists_of_classAt h).1

/-- Being well formed is a property that follows from non-empty sets. -/
theorem Node.madeOf_wellFormed : MadeOf (fun s => s.isEmpty = false) WellFormed where
  set := fun _ => .set
  concatOf := fun _ => .concatOf
  altOf := fun _ => .altOf
  repeated := fun _ _ _ hnode hbounds =>
    .repeated hnode (boundsInOrder_iff.1 hbounds).1 (boundsInOrder_iff.1 hbounds).2

/-- **What a pattern is read to is well formed.** -/
theorem Regex.wellFormed_of_parse {f : Flags} {named : NamedPatterns} {pattern : String} {r : Regex}
    (h : Regex.parse f named pattern = .ok r) : r.node.WellFormed :=
  Regex.madeOf_parse Node.madeOf_wellFormed f.writes_nonempty h

end FrontEnd
