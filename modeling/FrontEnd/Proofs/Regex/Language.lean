import FrontEnd.Regex.Node
import Mathlib.Computability.Language

/-!
# Languages of regular expressions

What an expression matches, said without automata: a set of byte strings for each tree.

## Main Definitions

* `copiesOf` — so many strings of a language, one after the other
* `Node.language` — the strings that an expression matches
* `untilFirst` — the strings that end with the first occurrence of a string of a language

## Main Statements

* `Node.nullable_iff` — an expression is nullable when it matches the empty string

## Design Notes

A repetition whose upper bound lies below the lower one matches exactly as many copies as the
lower bound says.
-/

namespace FrontEnd

open scoped Computability

/-- Between `min` and `max` strings of a language, one after the other. -/
def copiesOf (l : Language UInt8) (min : Nat) (max : Option Nat) : Language UInt8 :=
  {w | ∃ n, min ≤ n ∧ (∀ m ∈ max, n ≤ Nat.max min m) ∧ w ∈ l ^ n}

namespace Node

mutual

/-- The byte strings that an expression matches. -/
def language : Node → Language UInt8
  | .empty => 1
  | .set s => {w | ∃ b, s.contains b = true ∧ w = [b]}
  | .concat items => languageOfAll items
  | .alt items => languageOfAny items
  | .repeated node min max => copiesOf (language node) min max

/-- The byte strings that the items match one after the other. -/
def languageOfAll : List Node → Language UInt8
  | [] => 1
  | item :: items => language item * languageOfAll items

/-- The byte strings that one of the items matches. -/
def languageOfAny : List Node → Language UInt8
  | [] => 0
  | item :: items => language item + languageOfAny items

end

end Node

/-- The strings that end with a string of a language, while none of their proper prefixes does. -/
def untilFirst (l : Language UInt8) : Language UInt8 :=
  {w | (∃ v ∈ l, v <:+ w) ∧ ∀ u, u <+: w → u ≠ w → ∀ v ∈ l, ¬ v <:+ u}

/-! ### Repetitions

So many copies of a language, with and without an upper bound.  The equations follow the recursion
that an automaton is built by. -/

/-- At most so many strings of a language, one after the other. -/
def upTo (l : Language UInt8) (n : Nat) : Language UInt8 := {w | ∃ k ≤ n, w ∈ l ^ k}

variable {l : Language UInt8}

/-- No copy is the empty string. -/
@[simp] theorem upTo_zero : upTo l 0 = 1 := by
  ext w
  constructor
  · rintro ⟨k, hk, hw⟩
    obtain rfl : k = 0 := by omega
    simpa using hw
  · exact fun hw => ⟨0, le_rfl, by simpa using hw⟩

/-- Up to one more copy: none, or one and up to so many behind it. -/
theorem upTo_succ {n : Nat} : upTo l (n + 1) = 1 + l * upTo l n := by
  ext w
  rw [Language.mem_add]
  constructor
  · rintro ⟨k, hk, hw⟩
    rcases k with _ | k
    · exact .inl (by simpa using hw)
    · rw [pow_succ', Language.mem_mul] at hw
      obtain ⟨u, hu, v, hv, rfl⟩ := hw
      exact .inr (Language.append_mem_mul hu ⟨k, by omega, hv⟩)
  · rintro (hw | hw)
    · exact ⟨0, Nat.zero_le _, by simpa using hw⟩
    · obtain ⟨u, hu, v, ⟨k, hk, hv⟩, rfl⟩ := Language.mem_mul.1 hw
      exact ⟨k + 1, by omega, by rw [pow_succ']; exact Language.append_mem_mul hu hv⟩

/-- Without an upper bound, the least number of copies is followed by any number of them. -/
theorem copiesOf_none {min : Nat} : copiesOf l min none = l ^ min * l∗ := by
  ext w
  rw [Language.kstar_eq_iSup_pow, Language.mul_iSup, Language.mem_iSup]
  constructor
  · rintro ⟨n, hmin, -, hw⟩
    exact ⟨n - min, by rwa [← pow_add, Nat.add_sub_cancel' hmin]⟩
  · rintro ⟨k, hw⟩
    exact ⟨min + k, by omega, by simp, by rwa [pow_add]⟩

/-- With an upper bound, the least number of copies is followed by as many as still fit. -/
theorem copiesOf_some {min max : Nat} :
    copiesOf l min (some max) = l ^ min * upTo l (max - min) := by
  ext w
  constructor
  · rintro ⟨n, hmin, hmax, hw⟩
    have hn := hmax max rfl
    rw [show n = min + (n - min) by omega, pow_add] at hw
    obtain ⟨u, hu, v, hv, rfl⟩ := Language.mem_mul.1 hw
    refine Language.append_mem_mul hu ⟨n - min, ?_, hv⟩
    simp only [Nat.max_def] at hn
    split at hn <;> omega
  · intro hw
    obtain ⟨u, hu, v, ⟨k, hk, hv⟩, rfl⟩ := Language.mem_mul.1 hw
    refine ⟨min + k, by omega, ?_, by rw [pow_add]; exact Language.append_mem_mul hu hv⟩
    rintro m ⟨⟩
    exact (by omega : min + k ≤ max ∨ k = 0).elim (fun h => h.trans (Nat.le_max_right _ _))
      (fun h => by simp [h])

/-! ### The empty string

When a language that is put together has the empty string.  It is what nullability of an expression
is compared with. -/

/-- The empty string is a product of empty strings only. -/
theorem nil_mem_mul_iff {m : Language UInt8} : [] ∈ l * m ↔ [] ∈ l ∧ [] ∈ m := by
  rw [Language.mem_mul]
  constructor
  · rintro ⟨u, hu, v, hv, h⟩
    obtain ⟨rfl, rfl⟩ := List.append_eq_nil_iff.1 h
    exact ⟨hu, hv⟩
  · rintro ⟨hl, hm⟩
    exact ⟨[], hl, [], hm, rfl⟩

theorem nil_mem_pow_iff {n : Nat} : [] ∈ l ^ n ↔ n = 0 ∨ [] ∈ l := by
  induction n with
  | zero => simp
  | succ n ih =>
    rw [pow_succ', nil_mem_mul_iff, ih, or_iff_right (Nat.succ_ne_zero n)]
    exact and_iff_left_of_imp .inr

theorem nil_mem_copiesOf_iff {min : Nat} {max : Option Nat} :
    [] ∈ copiesOf l min max ↔ min = 0 ∨ [] ∈ l := by
  constructor
  · rintro ⟨n, hmin, -, hn⟩
    exact (nil_mem_pow_iff.1 hn).imp_left fun hzero => by omega
  · exact fun h => ⟨min, le_rfl, fun m _ => Nat.le_max_left _ _, nil_mem_pow_iff.2 h⟩

theorem nil_mem_untilFirst_iff : [] ∈ untilFirst l ↔ [] ∈ l := by
  constructor
  · rintro ⟨⟨v, hv, hsuffix⟩, -⟩
    obtain rfl := List.suffix_nil.1 hsuffix
    exact hv
  · exact fun h => ⟨⟨[], h, List.suffix_rfl⟩, fun u hu hne => absurd (List.prefix_nil.1 hu) hne⟩

/-- The empty string is the first occurrence, where it is one. -/
theorem untilFirst_of_nil_mem (h : [] ∈ l) : untilFirst l = 1 := by
  ext w
  rw [Language.mem_one]
  constructor
  · rintro ⟨-, hfirst⟩
    by_contra hne
    exact hfirst [] List.nil_prefix (Ne.symm hne) [] h List.suffix_rfl
  · rintro rfl
    exact nil_mem_untilFirst_iff.2 h

namespace Node

mutual

/-- **An expression is nullable** exactly when it matches the empty string. -/
theorem nullable_iff : ∀ t : Node, t.nullable = true ↔ [] ∈ t.language
  | .empty => by simp [nullable, language]
  | .set s => by
    rw [nullable, language]
    constructor
    · exact fun h => absurd h Bool.false_ne_true
    · rintro ⟨b, -, h⟩
      cases h
  | .concat items => by
    rw [nullable, language]
    exact allNullable_iff items
  | .alt items => by
    rw [nullable, language]
    exact anyNullable_iff items
  | .repeated node min max => by
    rw [nullable, language, Bool.or_eq_true, beq_iff_eq, nullable_iff node, nil_mem_copiesOf_iff]

/-- All the items are nullable when they match the empty string one after the other. -/
theorem allNullable_iff : ∀ items : List Node,
    allNullable items = true ↔ [] ∈ languageOfAll items
  | [] => by simp [allNullable, languageOfAll]
  | item :: items => by
    rw [allNullable, languageOfAll, Bool.and_eq_true, nullable_iff item, allNullable_iff items,
      nil_mem_mul_iff]

/-- One of the items is nullable when one of them matches the empty string. -/
theorem anyNullable_iff : ∀ items : List Node,
    anyNullable items = true ↔ [] ∈ languageOfAny items
  | [] => by simp [anyNullable, languageOfAny]
  | item :: items => by
    rw [anyNullable, languageOfAny, Bool.or_eq_true, nullable_iff item, anyNullable_iff items,
      Language.mem_add]

end

end Node

end FrontEnd
