import FrontEnd.Proofs.Ascii
import FrontEnd.Proofs.Nfa.Respects
import FrontEnd.Proofs.Regex.Assembly

/-!
# Patterns that ignore the case of letters

When the case of letters is ignored, each set that a pattern can write holds a letter in both cases
or in neither.  A class is completed before it is negated: the complement of a complete set is
complete, but completing a complement would add the letters that have been left out.

## Main Statements

* `Flags.writes_respects_sameLetter` — the sets of a pattern do not tell the cases apart
* `Regex.respects_sameLetter_of_parse` — neither does what a pattern is read to

## Design Notes

The relation between a letter and the same letter in the other case is `SameLetter`.  A set respects
it when it does not tell the two apart, and this is kept by unions and complements, so that it is
enough to look at the sets from which classes are put together.  That a whole pattern respects it is
then the general statement about what patterns are read to.
-/

namespace FrontEnd

open Ascii

/-! ### Sets

Sets that are given by a predicate or by a list of bytes respect the relation when it keeps the
predicate, or when none of the bytes is a letter. -/

namespace ByteSet

/-- A set respects the relation when it holds a byte exactly when it holds the other case of it. -/
theorem respects_sameLetter_iff {s : ByteSet} :
    s.Respects SameLetter ↔ ∀ b, s.contains (otherCase b) = s.contains b := by
  constructor
  · exact fun h b => (h b (otherCase b) (sameLetter_otherCase b)).symm
  · intro h a b hab
    rcases sameLetter_iff.1 hab with rfl | rfl
    · rfl
    · exact (h a).symm

theorem respects_addAsciiCase (s : ByteSet) : s.addAsciiCase.Respects SameLetter := by
  rw [respects_sameLetter_iff]
  intro b
  rw [contains_addAsciiCase, contains_addAsciiCase, otherCase_otherCase, Bool.or_comm]

/-- A set that is given by a predicate respects the relation when both cases of a letter are alike
for the predicate. -/
theorem respects_ofPred {p : UInt8 → Bool} (hp : ∀ b, p (otherCase b) = p b) :
    (ofPred p).Respects SameLetter := by
  rw [respects_sameLetter_iff]
  intro b
  rw [contains_ofPred, contains_ofPred, hp]

/-- A set of bytes that are no letters respects the relation. -/
theorem respects_ofList {bytes : List UInt8} (h : ∀ c ∈ bytes, otherCase c = c) :
    (ofList bytes).Respects SameLetter := by
  rw [respects_sameLetter_iff]
  intro b
  rw [contains_ofList, contains_ofList, decide_eq_decide]
  constructor
  · intro hb
    rwa [← (otherCase_eq_iff (h _ hb)).1 rfl] at hb
  · intro hb
    rwa [h b hb]

theorem respects_full : full.Respects SameLetter := by
  intro a b _
  rw [contains_full, contains_full]

/-- A set still respects the relation when a byte is taken out that is no letter. -/
theorem Respects.remove {s : ByteSet} (hs : s.Respects SameLetter) {c : UInt8}
    (hc : otherCase c = c) : (s.remove c).Respects SameLetter := by
  rw [respects_sameLetter_iff] at hs ⊢
  intro b
  simp only [contains_remove, hs b, eq_comm (a := c), otherCase_eq_iff hc]

end ByteSet

theorem respects_digitSet : digitSet.Respects SameLetter :=
  ByteSet.respects_ofPred isDigit_otherCase

theorem respects_wordSet : wordSet.Respects SameLetter := by
  refine ByteSet.respects_ofPred fun b => ?_
  have hunderscore : otherCase b = 0x5f ↔ b = 0x5f := otherCase_eq_iff (by decide)
  rw [isAlnum_otherCase, Bool.eq_iff_iff, Bool.or_eq_true, Bool.or_eq_true, beq_iff_eq, beq_iff_eq,
    hunderscore]

theorem respects_spaceSet : spaceSet.Respects SameLetter :=
  ByteSet.respects_ofList (by simp [otherCase, isLower, isUpper])

/-- The sets of the escape letters know no single case. -/
theorem respects_escapeClass? {letter : UInt8} {s : ByteSet} (h : escapeClass? letter = some s) :
    s.Respects SameLetter := by
  unfold escapeClass? at h
  split_ifs at h <;> cases h
  · exact respects_digitSet
  · exact respects_digitSet.complement
  · exact respects_wordSet
  · exact respects_wordSet.complement
  · exact respects_spaceSet
  · exact respects_spaceSet.complement

/-! ### Patterns

The four ways of writing a set, when the case of letters is ignored. -/

namespace Flags

variable {f : Flags} (hf : f.ignoreCase = true)

/-- The dot respects the relation: it leaves out line ends at most. -/
theorem respects_dot (f : Flags) : f.dot.Respects SameLetter := by
  have hlineFeed : otherCase 0x0a = 0x0a := by decide
  have hreturn : otherCase 0x0d = 0x0d := by decide
  have hfirst : ∀ c : Bool, (if c then ByteSet.full.remove 0x0a else ByteSet.full).Respects
      SameLetter := by
    intro c
    cases c with
    | true => exact ByteSet.respects_full.remove hlineFeed
    | false => exact ByteSet.respects_full
  unfold dot
  dsimp only
  split
  · exact ((hfirst _).remove hreturn).remove hlineFeed
  · exact hfirst _

include hf

theorem respects_literal (b : UInt8) : (f.literal b).Respects SameLetter := by
  rw [literal, if_pos hf]
  exact ByteSet.respects_addAsciiCase _

/-- A class is completed before it is negated. -/
theorem respects_classAt {start : Nat} {text : PatternText} {s : ByteSet} {n : Nat}
    (h : classAt f start text = .ok (s, n)) : s.Respects SameLetter := by
  obtain ⟨-, items, complete, hcomplete, hs⟩ := exists_of_classAt h
  rw [if_pos hf] at hcomplete
  have hrespects : complete.Respects SameLetter := hcomplete ▸ ByteSet.respects_addAsciiCase items
  rcases hs with rfl | rfl
  · exact hrespects
  · exact hrespects.complement

/-- **The sets of a pattern do not tell the cases apart.** -/
theorem writes_respects_sameLetter : f.Writes (ByteSet.Respects SameLetter) where
  literal := respects_literal hf
  dot := f.respects_dot
  escape := fun _ _ => respects_escapeClass?
  bracket := fun _ _ _ _ => respects_classAt hf

end Flags

/-- Whether the sets of an expression respect a relation follows from its sets one by one. -/
theorem Node.madeOf_respects (R : UInt8 → UInt8 → Prop) :
    MadeOf (ByteSet.Respects R) (Respects R) where
  set := fun _ => .set
  concatOf := fun _ h => concatOf_cases .empty (fun _ => .concat h) h
  altOf := fun _ h => altOf_cases .empty (fun _ => .alt h) h
  repeated := fun _ _ _ hnode _ => .repeated hnode

/-- **What a pattern is read to does not tell the cases apart.** -/
theorem Regex.respects_sameLetter_of_parse {f : Flags} (hf : f.ignoreCase = true)
    {named : NamedPatterns} {pattern : String} {r : Regex}
    (h : Regex.parse f named pattern = .ok r) : r.node.Respects SameLetter :=
  Regex.madeOf_parse (Node.madeOf_respects SameLetter) (Flags.writes_respects_sameLetter hf) h

end FrontEnd
