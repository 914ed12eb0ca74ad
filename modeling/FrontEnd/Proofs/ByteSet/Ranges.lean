import FrontEnd.ByteSet.Ranges
import Mathlib.Algebra.Ring.Nat
import Mathlib.Data.List.Chain
import Mathlib.Data.List.Induction

/-!
# Ranges describe their set

The ranges of a set are the only ones that describe it in order and with gaps between them: two such
lists begin with the same byte, their first ranges end with the same byte, and so on.

## Main Definitions

* `ByteRange.Covers`, `ByteRange.Covered` — the bytes of a range, and of some ranges
* `ByteRange.IsCanonical` — ranges in order and with gaps between them
* `ByteRange.extend` — ranges with one more byte behind them

## Main Statements

* `ByteRange.first_le_last` — the ranges of a list of bytes are in order
* `ByteRange.isCanonical_ofBytes` — the ranges of ascending bytes are in canonical form
* `ByteRange.IsCanonical.unique` — canonical ranges are determined by their bytes
* `ByteRange.foldl_extend` — ranges are found from the front as well
* `ByteSet.ofRanges_ranges` — a set is described by its ranges

## Design Notes

Uniqueness is an induction on one of the two lists.  The first ranges begin with the least byte, and
end in front of the least byte that is missing behind it, so they are equal; the gap behind them
keeps their bytes apart from those of the rest.
-/

namespace FrontEnd

namespace ByteRange

/-- The bytes of a range. -/
def Covers (r : ByteRange) (b : UInt8) : Prop := r.first ≤ b ∧ b ≤ r.last

/-- The bytes of some ranges. -/
def Covered (ranges : List ByteRange) (b : UInt8) : Prop := ∃ r ∈ ranges, r.Covers b

instance (r : ByteRange) (b : UInt8) : Decidable (r.Covers b) :=
  inferInstanceAs (Decidable (r.first ≤ b ∧ b ≤ r.last))

instance (ranges : List ByteRange) (b : UInt8) : Decidable (Covered ranges b) :=
  inferInstanceAs (Decidable (∃ r ∈ ranges, r.Covers b))

theorem covered_cons {r : ByteRange} {ranges : List ByteRange} {b : UInt8} :
    Covered (r :: ranges) b ↔ r.Covers b ∨ Covered ranges b := by
  simp [Covered]

/-- The ranges of a list of bytes are in order. -/
theorem first_le_last {bytes : List UInt8} : ∀ r ∈ ofBytes bytes, r.first ≤ r.last := by
  induction bytes with
  | nil => simp [ofBytes]
  | cons b bytes ih =>
    unfold ofBytes
    split
    · simp
    · next range ranges hranges =>
      rw [hranges] at ih
      obtain ⟨hrange, hrest⟩ := List.forall_mem_cons.1 ih
      split
      · next hnext =>
        refine List.forall_mem_cons.2 ⟨?_, hrest⟩
        rw [UInt8.le_iff_toNat_le] at hrange ⊢
        dsimp only
        omega
      · exact List.forall_mem_cons.2 ⟨UInt8.le_refl b, ih⟩

/-- The ranges of a list cover the bytes of the list. -/
theorem covered_ofBytes_iff {bytes : List UInt8} {x : UInt8} :
    Covered (ofBytes bytes) x ↔ x ∈ bytes := by
  induction bytes with
  | nil => simp [ofBytes, Covered]
  | cons b bytes ih =>
    have hsingle : ∀ x, (ByteRange.mk b b).Covers x ↔ x = b := fun x =>
      ⟨fun h => UInt8.le_antisymm h.2 h.1, fun h => h ▸ ⟨UInt8.le_refl x, UInt8.le_refl x⟩⟩
    rw [List.mem_cons]
    unfold ofBytes
    split
    · next hnil =>
      rw [hnil] at ih
      simp [← ih, covered_cons, hsingle]
    · next range ranges hranges =>
      rw [hranges] at ih
      rw [← ih]
      split
      · next hnext =>
        have hle : range.first ≤ range.last := first_le_last range (hranges ▸ List.mem_cons_self)
        have hmerged : (ByteRange.mk b range.last).Covers x ↔ x = b ∨ range.Covers x := by
          simp only [Covers, UInt8.le_iff_toNat_le, ← UInt8.toNat_inj] at hle ⊢
          omega
        rw [covered_cons, covered_cons, hmerged, or_assoc]
      · rw [covered_cons, hsingle]

/-- Number of bytes in a range. -/
def size (r : ByteRange) : Nat := r.last.toNat + 1 - r.first.toNat

/-- Ranges are in canonical form when none of them is empty and at least one byte lies between
neighbours. -/
structure IsCanonical (ranges : List ByteRange) : Prop where
  ordered : ∀ r ∈ ranges, r.first ≤ r.last
  gap : ranges.IsChain fun r q => r.last.toNat + 1 < q.first.toNat

instance (ranges : List ByteRange) : Decidable (IsCanonical ranges) :=
  decidable_of_iff ((∀ r ∈ ranges, r.first ≤ r.last) ∧
      ranges.IsChain fun r q => r.last.toNat + 1 < q.first.toNat)
    ⟨fun h => ⟨h.1, h.2⟩, fun h => ⟨h.ordered, h.gap⟩⟩

section Canonical

variable {r q : ByteRange} {ranges ranges' : List ByteRange} {b : UInt8}

theorem IsCanonical.tail (h : IsCanonical (r :: ranges)) : IsCanonical ranges :=
  ⟨fun q hq => h.ordered q (List.mem_cons_of_mem r hq), h.gap.tail⟩

/-- The first byte of the first range is covered. -/
theorem IsCanonical.covers_first (h : IsCanonical (r :: ranges)) : r.Covers r.first :=
  ⟨UInt8.le_refl _, h.ordered r List.mem_cons_self⟩

/-- What the ranges behind the first one cover, lies behind a gap. -/
theorem IsCanonical.lt_of_covered (h : IsCanonical (r :: ranges)) (hb : Covered ranges b) :
    r.last.toNat + 1 < b.toNat := by
  induction ranges generalizing r with
  | nil =>
    obtain ⟨q, hq, -⟩ := hb
    cases hq
  | cons q ranges ih =>
    have hgap := (List.isChain_cons_cons.1 h.gap).1
    rcases covered_cons.1 hb with hq | hb
    · exact Nat.lt_of_lt_of_le hgap (UInt8.le_iff_toNat_le.1 hq.1)
    · have hordered := UInt8.le_iff_toNat_le.1 h.tail.covers_first.2
      have hbehind := ih h.tail hb
      omega

/-- The first range begins with the least byte. -/
theorem IsCanonical.first_le (h : IsCanonical (r :: ranges)) (hb : Covered (r :: ranges) b) :
    r.first ≤ b := by
  rcases covered_cons.1 hb with hb | hb
  · exact hb.1
  · have hordered := UInt8.le_iff_toNat_le.1 h.covers_first.2
    have hbehind := h.lt_of_covered hb
    rw [UInt8.le_iff_toNat_le]
    omega

/-- Where two lists begin at one byte, the first range of one that covers more ends no earlier. -/
theorem IsCanonical.last_le (h : IsCanonical (r :: ranges)) (hfirst : r.first = q.first)
    (hcovered : ∀ b, Covered (q :: ranges') b → Covered (r :: ranges) b) : q.last ≤ r.last := by
  by_contra hnot
  have hordered := UInt8.le_iff_toNat_le.1 h.covers_first.2
  have hbound := q.last.toNat_lt
  rw [UInt8.le_iff_toNat_le] at hnot
  -- the byte behind the shorter range is covered by the longer one only
  have hnext : (UInt8.ofNat (r.last.toNat + 1)).toNat = r.last.toNat + 1 :=
    UInt8.toNat_ofNat_of_lt' (show r.last.toNat + 1 < 256 by omega)
  have hq : q.Covers (UInt8.ofNat (r.last.toNat + 1)) := by
    simp only [Covers, UInt8.le_iff_toNat_le, hnext, ← hfirst]
    omega
  rcases covered_cons.1 (hcovered _ (covered_cons.2 (.inl hq))) with hr | hr
  · have hlast := UInt8.le_iff_toNat_le.1 hr.2
    omega
  · have hbehind := h.lt_of_covered hr
    omega

/-- The ranges of a canonical list are in ascending order. -/
theorem IsCanonical.pairwise (h : IsCanonical ranges) :
    ranges.Pairwise fun r q => r.last < q.first := by
  induction ranges with
  | nil => exact .nil
  | cons r ranges ih =>
    refine List.pairwise_cons.2 ⟨fun q hq => ?_, ih h.tail⟩
    have hcovered : Covered ranges q.first :=
      ⟨q, hq, UInt8.le_refl _, h.ordered q (List.mem_cons_of_mem r hq)⟩
    have hlt := h.lt_of_covered hcovered
    rw [UInt8.lt_iff_toNat_lt]
    omega

/-- **Canonical ranges are determined by the bytes that they cover.** -/
theorem IsCanonical.unique (h : IsCanonical ranges) (h' : IsCanonical ranges')
    (hcovered : ∀ b, Covered ranges b ↔ Covered ranges' b) : ranges = ranges' := by
  induction ranges generalizing ranges' with
  | nil =>
    cases ranges' with
    | nil => rfl
    | cons q ranges' =>
      have hq : Covered (q :: ranges') q.first := covered_cons.2 (.inl h'.covers_first)
      simpa [Covered] using (hcovered q.first).2 hq
  | cons r ranges ih =>
    have hr : Covered (r :: ranges) r.first := covered_cons.2 (.inl h.covers_first)
    cases ranges' with
    | nil => simpa [Covered] using (hcovered r.first).1 hr
    | cons q ranges' =>
      have hq : Covered (q :: ranges') q.first := covered_cons.2 (.inl h'.covers_first)
      have hfirst : r.first = q.first := UInt8.le_antisymm
        (h.first_le ((hcovered _).2 hq)) (h'.first_le ((hcovered _).1 hr))
      have hlast : r.last = q.last := UInt8.le_antisymm
        (h'.last_le hfirst.symm fun b => (hcovered b).1)
        (h.last_le hfirst fun b => (hcovered b).2)
      obtain rfl : r = q := by
        cases r
        cases q
        simp_all
      rw [ih h.tail h'.tail ?_]
      intro b
      -- what lies behind the gap is covered by the other ranges
      have hbehind := hcovered b
      rw [covered_cons, covered_cons] at hbehind
      constructor <;> intro hb
      · refine (hbehind.1 (.inr hb)).resolve_left fun hcovers => ?_
        have hlast := UInt8.le_iff_toNat_le.1 hcovers.2
        have hlt := h.lt_of_covered hb
        omega
      · refine (hbehind.2 (.inr hb)).resolve_left fun hcovers => ?_
        have hlast := UInt8.le_iff_toNat_le.1 hcovers.2
        have hlt := h'.lt_of_covered hb
        omega

end Canonical

/-- The ranges of ascending bytes are in canonical form. -/
theorem isCanonical_ofBytes {bytes : List UInt8} (h : bytes.Pairwise (· < ·)) :
    IsCanonical (ofBytes bytes) := by
  refine ⟨first_le_last, ?_⟩
  induction bytes with
  | nil => exact .nil
  | cons b bytes ih =>
    obtain ⟨hb, hbytes⟩ := List.pairwise_cons.1 h
    have hrest := ih hbytes
    unfold ofBytes
    split
    · exact .singleton _
    · next range ranges hranges =>
      have hmem : range ∈ ofBytes bytes := hranges ▸ List.mem_cons_self
      have hrange : range.first ∈ bytes :=
        covered_ofBytes_iff.1 ⟨range, hmem, UInt8.le_refl _, first_le_last range hmem⟩
      have hlt := UInt8.lt_iff_toNat_lt.1 (hb _ hrange)
      rw [hranges] at hrest
      split
      · cases ranges with
        | nil => exact .singleton _
        | cons q ranges => exact List.isChain_cons_cons.2 (List.isChain_cons_cons.1 hrest)
      · exact List.isChain_cons_cons.2 ⟨by dsimp only; omega, hrest⟩

/-- The ranges of a list of bytes have as many bytes as the list. -/
theorem sum_size_ofBytes (bytes : List UInt8) :
    ((ofBytes bytes).map size).sum = bytes.length := by
  induction bytes with
  | nil => rfl
  | cons b bytes ih =>
    have hsingle : size ⟨b, b⟩ = 1 := Nat.add_sub_cancel_left b.toNat 1
    unfold ofBytes
    split
    · next hnil =>
      rw [hnil] at ih
      rw [List.length_cons, ← ih, List.map_cons, List.sum_cons, hsingle, Nat.add_comm]
    · next range ranges hranges =>
      rw [hranges, List.map_cons, List.sum_cons] at ih
      rw [List.length_cons, ← ih]
      split
      · next hnext =>
        have hle := UInt8.le_iff_toNat_le.1
          (first_le_last range (hranges ▸ List.mem_cons_self))
        simp only [List.map_cons, List.sum_cons, size]
        omega
      · simp only [List.map_cons, List.sum_cons, hsingle]
        omega

/-- Adds a byte behind the bytes of some ranges: the last range grows when it ends in front of the
byte, and a new one begins otherwise. -/
def extend (ranges : List ByteRange) (b : UInt8) : List ByteRange :=
  match ranges.getLast? with
  | some r =>
    if r.last.toUInt16 + 1 = b.toUInt16 then ranges.dropLast ++ [⟨r.first, b⟩]
    else ranges ++ [⟨b, b⟩]
  | none => [⟨b, b⟩]

section Extend

variable {r q : ByteRange} {ranges : List ByteRange} {b : UInt8}

/-- One more than a byte, without wrapping around. -/
theorem toUInt16_add_one_eq_iff {a b : UInt8} :
    a.toUInt16 + 1 = b.toUInt16 ↔ a.toNat + 1 = b.toNat := by
  have ha := a.toNat_lt
  rw [← UInt16.toNat_inj, UInt16.toNat_add, UInt8.toNat_toUInt16, UInt8.toNat_toUInt16]
  simp only [UInt16.reduceToNat]
  omega

theorem extend_singleton :
    extend [r] b = if r.last.toNat + 1 = b.toNat then [⟨r.first, b⟩] else [r, ⟨b, b⟩] := by
  unfold extend
  simp only [List.getLast?_singleton, toUInt16_add_one_eq_iff]
  rfl

/-- Only the last range is looked at. -/
theorem extend_cons_cons : extend (r :: q :: ranges) b = r :: extend (q :: ranges) b := by
  unfold extend
  rw [List.getLast?_cons_cons]
  cases h : (q :: ranges).getLast? with
  | none => simp at h
  | some last =>
    dsimp only
    split <;> simp

/-- The ranges of a list can be found from its front as well. -/
theorem ofBytes_concat (bytes : List UInt8) (b : UInt8) :
    ofBytes (bytes ++ [b]) = extend (ofBytes bytes) b := by
  induction bytes with
  | nil => rfl
  | cons a bytes ih =>
    rw [List.cons_append]
    unfold ofBytes
    rw [ih]
    match ofBytes bytes with
    | [] =>
      rw [extend_singleton]
      rfl
    | [r] =>
      rw [extend_singleton]
      by_cases hr : r.last.toNat + 1 = b.toNat <;>
        by_cases ha : a.toNat + 1 = r.first.toNat <;>
          simp [hr, ha, extend_singleton, extend_cons_cons]
    | r :: q :: ranges =>
      rw [extend_cons_cons]
      dsimp only
      split
      · rw [extend_cons_cons]
      · rw [extend_cons_cons, extend_cons_cons]

/-- The ranges of a list are found byte by byte. -/
theorem foldl_extend (bytes : List UInt8) : bytes.foldl extend [] = ofBytes bytes := by
  induction bytes using List.reverseRecOn with
  | nil => rfl
  | append_singleton bytes b ih =>
    rw [List.foldl_append, List.foldl_cons, List.foldl_nil, ih, ofBytes_concat]

end Extend

end ByteRange

/-- All bytes are listed in ascending order. -/
theorem pairwise_allBytes : allBytes.Pairwise (· < ·) := by
  rw [allBytes, List.pairwise_map]
  refine List.pairwise_lt_range.imp_of_mem ?_
  intro i j hi hj hlt
  rw [List.mem_range] at hi hj
  rw [UInt8.lt_iff_toNat_lt, UInt8.toNat_ofNat_of_lt' hi, UInt8.toNat_ofNat_of_lt' hj]
  exact hlt

namespace ByteSet

/-- The bytes of a set are listed in ascending order. -/
theorem pairwise_toList (s : ByteSet) : s.toList.Pairwise (· < ·) := pairwise_allBytes.filter _

/-- Inserted ranges add the bytes that they cover. -/
theorem contains_insertRanges {s : ByteSet} {ranges : List ByteRange} {b : UInt8} :
    (s.insertRanges ranges).contains b = true ↔
      s.contains b = true ∨ ByteRange.Covered ranges b := by
  induction ranges generalizing s with
  | nil => simp [insertRanges, ByteRange.Covered]
  | cons r ranges ih =>
    have hstep : s.insertRanges (r :: ranges) =
        (s.insertRange r.first r.last).insertRanges ranges := rfl
    rw [hstep, ih]
    simp [ByteRange.covered_cons, ByteRange.Covers, or_assoc]

/-- **A set is described by its ranges.** -/
theorem ofRanges_ranges (s : ByteSet) : ofRanges s.ranges = s := by
  refine ext fun b => Bool.eq_iff_iff.2 ?_
  rw [ofRanges, contains_insertRanges, ranges, ByteRange.covered_ofBytes_iff, mem_toList]
  simp

end ByteSet

end FrontEnd
