import FrontEnd.Proofs.ByteSet.Groups
import FrontEnd.Proofs.ByteSet.Ranges
import Mathlib.Data.List.Induction

/-!
# Groups by refinement

Groups of bytes can be found without signatures: all bytes are one group in the beginning, and each
set in turn cuts every group into its bytes outside the set and those inside.  The parts are
numbered anew each time, in the order in which ascending bytes bring them up, so however many sets
there are, the numbers never run out.  The groups are the coarsest that no set cuts.

## Main Definitions

* `Renumbering` — groups that are being cut, with the new numbers given out so far
* `ByteGroups.cut`, `ByteGroups.cutAll` — groups cut by one set, and all bytes cut by some sets
* `ByteGroups.gather` — the bytes of each group, collected in one pass
* `ByteGroups.Halfway` — a cut after some of the bytes have been met

## Main Statements

* `ByteGroups.Halfway.meet` — what meeting one more byte preserves
* `ByteGroups.cut_byKey` — a cut tells bytes apart that are on different sides of the set
* `ByteGroups.cutAll_eq` — cutting by all sets leads to the groups
* `ByteGroups.coarsest` — the groups are the coarsest that no set cuts

## Design Notes

A cut has no result where a group has no place among those that are cut, or a number does not fit
into 16 bits.  Neither happens: the new numbers count different pairs of an old group and a side,
and there are no more of them than bytes.
-/

namespace FrontEnd

/-! ### Cuts

A cut keeps, for each old group, the new numbers of its two parts.  A part gets the next number when
the first byte of it is met. -/

/-- The new numbers of the two parts of a group, once a byte of the part has been met. -/
structure Halves where
  outside : Option Nat
  inside : Option Nat

namespace Halves

/-- The number of one part. -/
def get (h : Halves) (side : Bool) : Option Nat := if side then h.inside else h.outside

/-- Gives a number to one part. -/
def set (h : Halves) (side : Bool) (number : Nat) : Halves :=
  if side then ⟨h.outside, some number⟩ else ⟨some number, h.inside⟩

theorem get_set (h : Halves) (side side' : Bool) (number : Nat) :
    (h.set side number).get side' = if side' = side then some number else h.get side' := by
  cases side <;> cases side' <;> rfl

end Halves

/-- Groups that are being cut by a set. -/
structure Renumbering where
  /-- The group of each byte, by the new numbers for the bytes that have been met. -/
  table : Array Nat
  /-- The parts of each old group. -/
  parts : Array Halves
  /-- How many new numbers have been given out. -/
  count : Nat

/-- Gives a byte the number of its part, or the next number when it is the first one there. -/
def Renumbering.meet (s : ByteSet) (r : Renumbering) (b : UInt8) : Option Renumbering := do
  let group ← r.table[b.toNat]?
  let halves ← r.parts[group]?
  match halves.get (s.contains b) with
  | some number => some { r with table := r.table.setIfInBounds b.toNat number }
  | none =>
    if r.count < 2 ^ 16 then
      some {
        table := r.table.setIfInBounds b.toNat r.count
        parts := r.parts.setIfInBounds group (halves.set (s.contains b) r.count)
        count := r.count + 1 }
    else none

namespace ByteGroups

/-- The parts of the groups, numbered anew. -/
def cut (g : ByteGroups) (s : ByteSet) : Option ByteGroups :=
  (allBytes.foldlM (Renumbering.meet s) ⟨g.table, Array.replicate g.count ⟨none, none⟩, 0⟩).map
    fun r => ⟨r.table, r.count⟩

/-- One group of all bytes. -/
def whole : ByteGroups := ⟨Array.replicate 256 0, 1⟩

/-- All bytes, cut by one set after the other. -/
def cutAll (sets : List ByteSet) : Option ByteGroups := sets.foldlM cut whole

/-- Enters a byte into the set of its group. -/
def collect (g : ByteGroups) (sets : Array ByteSet) (b : UInt8) : Option (Array ByteSet) := do
  let group ← g.table[b.toNat]?
  let set ← sets[group]?
  some (sets.setIfInBounds group (set.insert b))

/-- The bytes of each group, collected in one pass over all bytes. -/
def gather (g : ByteGroups) : Option (Array ByteSet) :=
  allBytes.foldlM g.collect (Array.replicate g.count ByteSet.empty)

end ByteGroups

/-! ### Numbers in the order of appearance

The number of a key is the number of different keys in front of its first appearance.  Appending a
key that has appeared leaves all numbers as they are, and a new key gets the next one; the two cases
of a cut are these. -/

section Number

variable {α : Type} [BEq α] [LawfulBEq α]

/-- An appended key is kept when it is new. -/
theorem eraseDups_concat (keys : List α) (k : α) :
    (keys ++ [k]).eraseDups = if k ∈ keys then keys.eraseDups else keys.eraseDups ++ [k] := by
  rw [List.eraseDups_append, List.removeAll]
  split
  · next h => rw [List.filter_cons_of_neg (by simpa using h)]; simp
  · next h =>
    rw [List.filter_cons_of_pos (by simpa using h), List.filter_nil,
      eraseDups_of_nodup (List.nodup_singleton k)]

/-- The number of an element among the different ones of a list, in the order in which they
appear. -/
def number? (keys : List α) (k : α) : Option Nat :=
  if k ∈ keys then some (keys.eraseDups.idxOf k) else none

/-- A key that has appeared has a number. -/
theorem number?_of_mem {keys : List α} {k : α} (h : k ∈ keys) :
    number? keys k = some (keys.eraseDups.idxOf k) := if_pos h

/-- A key that has not appeared has none. -/
theorem number?_eq_none_iff {keys : List α} {k : α} : number? keys k = none ↔ k ∉ keys := by
  simp [number?]

/-- An element that is there already adds no number, and a new one is the next. -/
theorem number?_concat (keys : List α) (k x : α) :
    number? (keys ++ [k]) x =
      (number? keys x).or (if x == k then some keys.eraseDups.length else none) := by
  by_cases hx : x ∈ keys
  · have hmem : x ∈ keys.eraseDups := List.mem_eraseDups.2 hx
    rw [number?_of_mem hx, number?_of_mem (List.mem_append_left _ hx), Option.some_or,
      eraseDups_concat]
    split
    · rfl
    · rw [List.idxOf_append_of_mem hmem]
  · rw [number?_eq_none_iff.2 hx, Option.none_or]
    have hnew : x ∉ keys.eraseDups := fun h => hx (List.mem_eraseDups.1 h)
    split
    · next heq =>
      obtain rfl := eq_of_beq heq
      rw [number?_of_mem (by simp), eraseDups_concat, if_neg hx, List.idxOf_append_of_notMem hnew,
        List.idxOf_cons_self, Nat.add_zero]
    · next hne => exact number?_eq_none_iff.2 (by simpa [hx] using hne)

/-- A key that appears again changes no number. -/
theorem number?_concat_of_mem {keys : List α} {k : α} (h : k ∈ keys) (x : α) :
    number? (keys ++ [k]) x = number? keys x := by
  rw [number?_concat]
  split
  · next heq => rw [eq_of_beq heq, number?_of_mem h, Option.some_or]
  · rw [Option.or_none]

/-- A new key has the next number, and the others keep theirs. -/
theorem number?_concat_of_notMem {keys : List α} {k : α} (h : k ∉ keys) (x : α) :
    number? (keys ++ [k]) x = if x == k then some keys.eraseDups.length else number? keys x := by
  rw [number?_concat]
  split
  · next heq => rw [eq_of_beq heq, number?_eq_none_iff.2 h, Option.none_or]
  · rw [Option.or_none]

end Number

/-! ### Keys that tell the same bytes apart

Numbers depend only on which keys are equal.  So two functions that tell the same bytes apart number
them in the same way, whatever their values are. -/

namespace ByteGroups

section Keys

variable {α β : Type} [BEq α] [LawfulBEq α] [BEq β] [LawfulBEq β]

/-- Behind all bytes, the number of a key is the group of its bytes. -/
theorem number?_keys (f : UInt8 → α) (b : UInt8) :
    number? (allBytes.map f) (f b) = some ((byKey f).group b) := by
  rw [number?_of_mem (List.mem_map_of_mem (mem_allBytes b)), group_byKey]

/-- Groups by a key are determined by the numbers of the keys. -/
theorem eq_byKey {g : ByteGroups} {f : UInt8 → α} (hsize : g.table.size = 256)
    (htable : ∀ b : UInt8, g.table[b.toNat]? = number? (allBytes.map f) (f b))
    (hcount : g.count = (allBytes.map f).eraseDups.length) : g = byKey f := by
  obtain ⟨table, count⟩ := g
  obtain rfl : table = (byKey f).table := by
    refine Array.ext_getElem? fun i => ?_
    by_cases hi : i < 256
    · have hbyte : (UInt8.ofNat i).toNat = i := UInt8.toNat_ofNat_of_lt' hi
      rw [← hbyte, getElem?_byKey, ← number?_keys]
      exact htable _
    · rw [Array.getElem?_eq_none (by simpa [hsize] using hi),
        Array.getElem?_eq_none (by simpa [size_byKey] using hi)]
  obtain rfl : count = (byKey f).count := hcount
  rfl

/-- Keys that tell the same bytes apart give them the same numbers. -/
theorem number?_map_congr {f : UInt8 → α} {f' : UInt8 → β}
    (h : ∀ a b, f a = f b ↔ f' a = f' b) (bytes : List UInt8) :
    (bytes.map f).eraseDups.length = (bytes.map f').eraseDups.length ∧
      ∀ b, number? (bytes.map f) (f b) = number? (bytes.map f') (f' b) := by
  -- from the end of the list, where a key is new for both functions or for neither
  induction bytes using List.reverseRecOn with
  | nil => exact ⟨rfl, fun _ => rfl⟩
  | append_singleton bytes a ih =>
    obtain ⟨hlength, hnumber⟩ := ih
    have hmem : f a ∈ bytes.map f ↔ f' a ∈ bytes.map f' := by simp [h]
    constructor
    · simp only [List.map_append, List.map_cons, List.map_nil, eraseDups_concat, hmem]
      split <;> simp [hlength]
    · intro b
      have hbeq : (f b == f a) = (f' b == f' a) := by
        rw [Bool.eq_iff_iff, beq_iff_eq, beq_iff_eq, h]
      simp only [List.map_append, List.map_cons, List.map_nil, number?_concat, hnumber, hlength,
        hbeq]

/-- Keys that tell the same bytes apart give the same groups. -/
theorem byKey_congr {f : UInt8 → α} {f' : UInt8 → β} (h : ∀ a b, f a = f b ↔ f' a = f' b) :
    byKey f = byKey f' := by
  obtain ⟨hlength, hnumber⟩ := number?_map_congr h allBytes
  refine eq_byKey (size_byKey f) (fun b => ?_) hlength
  rw [getElem?_byKey, ← number?_keys, hnumber]

end Keys

/-! ### Cutting groups

A byte that has been cut off has the old group and its side of the set as its key.  The invariant of
a half done cut says that the parts have the numbers of these keys among the bytes that have been
met, and that the other bytes have their old groups. -/

section Cut

variable {α : Type} [BEq α] [LawfulBEq α] {f : UInt8 → α} {s : ByteSet} {met : List UInt8}
  {r : Renumbering} {b : UInt8}

/-- The key of a byte after a cut: its old one, and the side of the set. -/
def cutKey (f : UInt8 → α) (s : ByteSet) (b : UInt8) : α × Bool := (f b, s.contains b)

/-- A cut after some bytes have been met: they have the numbers of their new keys, and all others
have their old groups. -/
structure Halfway (f : UInt8 → α) (s : ByteSet) (met : List UInt8) (r : Renumbering) : Prop where
  size_table : r.table.size = 256
  table : ∀ b : UInt8, r.table[b.toNat]? =
    if b ∈ met then number? (met.map (cutKey f s)) (cutKey f s b) else some ((byKey f).group b)
  parts : ∀ b : UInt8, ∃ h, r.parts[(byKey f).group b]? = some h ∧
    ∀ side, h.get side = number? (met.map (cutKey f s)) (f b, side)
  count : r.count = (met.map (cutKey f s)).eraseDups.length

/-- In the beginning no byte has been met. -/
theorem Halfway.start (f : UInt8 → α) (s : ByteSet) :
    Halfway f s [] ⟨(byKey f).table, Array.replicate (byKey f).count ⟨none, none⟩, 0⟩ where
  size_table := size_byKey f
  table b := getElem?_byKey f b
  parts b := by
    refine ⟨⟨none, none⟩, ?_, fun side => by cases side <;> rfl⟩
    rw [Array.getElem?_replicate, if_pos (group_byKey_lt f b)]
  count := rfl

/-- No more numbers are given out than bytes have been met. -/
theorem Halfway.count_le (h : Halfway f s met r) : r.count ≤ met.length := by
  rw [h.count, ← List.length_map (cutKey f s)]
  exact length_eraseDups_le _

/-- The table with the number of one more byte. -/
theorem Halfway.getElem?_table (h : Halfway f s met r) {number : Nat}
    (hnumber : number? ((met ++ [b]).map (cutKey f s)) (cutKey f s b) = some number) (c : UInt8) :
    (r.table.setIfInBounds b.toNat number)[c.toNat]? =
      if c ∈ met ++ [b] then number? ((met ++ [b]).map (cutKey f s)) (cutKey f s c)
      else some ((byKey f).group c) := by
  rw [Array.getElem?_setIfInBounds]
  by_cases hbc : b = c
  · subst hbc
    rw [if_pos rfl, h.size_table, if_pos b.toNat_lt, if_pos (by simp), hnumber]
  · rw [if_neg fun heq => hbc (UInt8.toNat_inj.1 heq), h.table]
    have hmem : c ∈ met ++ [b] ↔ c ∈ met := by simp [Ne.symm hbc]
    simp only [hmem]
    split
    · next hc =>
      rw [List.map_append, List.map_cons, List.map_nil, number?_concat,
        number?_of_mem (List.mem_map_of_mem hc), Option.some_or]
    · rfl

omit [BEq α] [LawfulBEq α] in
theorem map_cutKey_concat (f : UInt8 → α) (s : ByteSet) (met : List UInt8) (b : UInt8) :
    (met ++ [b]).map (cutKey f s) = met.map (cutKey f s) ++ [cutKey f s b] := by simp

/-- A byte of a part that has a number gets this one. -/
theorem Halfway.meet_seen (h : Halfway f s met r) {number : Nat}
    (hseen : number? (met.map (cutKey f s)) (cutKey f s b) = some number) :
    Halfway f s (met ++ [b]) { r with table := r.table.setIfInBounds b.toNat number } := by
  have hmem : cutKey f s b ∈ met.map (cutKey f s) := by
    by_contra hno
    rw [number?_eq_none_iff.2 hno] at hseen
    cases hseen
  refine ⟨by simp [h.size_table], h.getElem?_table ?_, fun c => ?_, ?_⟩
  · rw [map_cutKey_concat, number?_concat_of_mem hmem, hseen]
  · simp only [map_cutKey_concat, number?_concat_of_mem hmem]
    exact h.parts c
  · rw [map_cutKey_concat, eraseDups_concat, if_pos hmem, h.count]

/-- The first byte of a part gets the next number, and the part keeps it. -/
theorem Halfway.meet_unseen (h : Halfway f s met r)
    (hunseen : cutKey f s b ∉ met.map (cutKey f s)) {halves : Halves}
    (hhalves : r.parts[(byKey f).group b]? = some halves)
    (hget : ∀ side, halves.get side = number? (met.map (cutKey f s)) (f b, side)) :
    Halfway f s (met ++ [b]) {
      table := r.table.setIfInBounds b.toNat r.count
      parts := r.parts.setIfInBounds ((byKey f).group b) (halves.set (s.contains b) r.count)
      count := r.count + 1 } := by
  refine ⟨by simp [h.size_table], h.getElem?_table ?_, fun c => ?_, ?_⟩
  · rw [map_cutKey_concat, number?_concat_of_notMem hunseen, if_pos (beq_self_eq_true _), h.count]
  · simp only [map_cutKey_concat, number?_concat_of_notMem hunseen]
    by_cases hc : (byKey f).group c = (byKey f).group b
    · have hkey : f c = f b := group_byKey_eq_iff.1 hc
      refine ⟨halves.set (s.contains b) r.count, ?_, fun side => ?_⟩
      · rw [hc, Array.getElem?_setIfInBounds_self_of_lt (Array.getElem?_eq_some_iff.1 hhalves).1]
      · rw [Halves.get_set, hget, hkey, h.count]
        by_cases hside : side = s.contains b <;> simp [hside, cutKey]
    · have hkey : f c ≠ f b := fun heq => hc (group_byKey_eq_iff.2 heq)
      obtain ⟨other, hother, hget'⟩ := h.parts c
      refine ⟨other, ?_, fun side => ?_⟩
      · rw [Array.getElem?_setIfInBounds_ne (Ne.symm hc), hother]
      · rw [hget', if_neg (by simp [cutKey, hkey])]
  · rw [map_cutKey_concat, eraseDups_concat, if_neg hunseen, List.length_append, h.count,
      List.length_singleton]

/-- Meeting a byte fails neither for want of a group nor for want of a number. -/
theorem Halfway.meet (h : Halfway f s met r) (hnew : b ∉ met) (hfew : met.length < 2 ^ 16) :
    ∃ r', r.meet s b = some r' ∧ Halfway f s (met ++ [b]) r' := by
  have hgroup : r.table[b.toNat]? = some ((byKey f).group b) := by rw [h.table, if_neg hnew]
  obtain ⟨halves, hhalves, hget⟩ := h.parts b
  rw [Renumbering.meet, hgroup, Option.bind_eq_bind, Option.bind_some, hhalves,
    Option.bind_eq_bind, Option.bind_some]
  -- the part of the byte has a number just when the new key has come up before
  rcases hpart : halves.get (s.contains b) with - | number
  · have hunseen : cutKey f s b ∉ met.map (cutKey f s) := by
      rw [← number?_eq_none_iff, ← hpart, hget, cutKey]
    have hcount : r.count < 2 ^ 16 := Nat.lt_of_le_of_lt h.count_le hfew
    exact ⟨_, if_pos hcount, h.meet_unseen hunseen hhalves hget⟩
  · have hseen : number? (met.map (cutKey f s)) (cutKey f s b) = some number := by
      rw [← hpart, hget, cutKey]
    exact ⟨_, rfl, h.meet_seen hseen⟩

/-- **All bytes that are left are met.**  No byte is met twice, so there are fewer numbers than
bytes, and each of them fits. -/
theorem Halfway.run (h : Halfway f s met r) (rest : List UInt8) (hnodup : (met ++ rest).Nodup)
    (hfew : (met ++ rest).length < 2 ^ 16) :
    ∃ r', rest.foldlM (Renumbering.meet s) r = some r' ∧ Halfway f s (met ++ rest) r' := by
  induction rest generalizing met r with
  | nil => exact ⟨r, rfl, by rwa [List.append_nil]⟩
  | cons b rest ih =>
    have hnew : b ∉ met := fun hb =>
      List.disjoint_of_nodup_append hnodup hb List.mem_cons_self
    obtain ⟨next, hmeet, hnext⟩ := h.meet hnew (by simp at hfew; omega)
    rw [List.append_cons] at hnodup hfew ⊢
    obtain ⟨last, hrun, hlast⟩ := ih hnext hnodup hfew
    refine ⟨last, ?_, hlast⟩
    rw [List.foldlM_cons, hmeet]
    exact hrun

/-- **A cut tells bytes apart that are on different sides of the set.** -/
theorem cut_byKey (f : UInt8 → α) (s : ByteSet) :
    (byKey f).cut s = some (byKey (cutKey f s)) := by
  obtain ⟨r, hrun, hr⟩ := (Halfway.start f s).run allBytes
    (pairwise_allBytes.imp UInt8.ne_of_lt) (by rw [List.nil_append, length_allBytes]; decide)
  rw [cut, hrun, Option.map_some, Option.some_inj]
  rw [List.nil_append] at hr
  refine eq_byKey hr.size_table (fun b => ?_) hr.count
  rw [hr.table, if_pos (mem_allBytes b)]

/-- One group of all bytes is grouping by nothing. -/
theorem whole_eq_byKey : whole = byKey fun _ => () := by
  have hone : (allBytes.map fun _ => ()).eraseDups = [()] :=
    eraseDups_eq_singleton (by simp [allBytes]) fun _ _ => rfl
  refine eq_byKey Array.size_replicate (fun b => ?_) (by rw [hone]; rfl)
  rw [number?_of_mem (List.mem_map_of_mem (mem_allBytes b)), hone, whole, Array.getElem?_replicate,
    if_pos b.toNat_lt]
  rfl

/-- Each set adds its side to the key of a byte, so the sides of all sets together are the
signature. -/
theorem cutAll_byKey (f : UInt8 → α) (sets : List ByteSet) :
    sets.foldlM cut (byKey f) = some (byKey fun b => (f b, ByteSet.signature sets b)) := by
  induction sets generalizing α with
  | nil =>
    rw [List.foldlM_nil]
    exact congrArg some (byKey_congr fun a b => by simp [ByteSet.signature])
  | cons s sets ih =>
    rw [List.foldlM_cons, cut_byKey, Option.bind_eq_bind, Option.bind_some, ih]
    -- a side beside the key and a shorter signature tell apart what the longer signature does
    refine congrArg some (byKey_congr fun a b => ?_)
    simp [cutKey, ByteSet.signature, and_assoc]

/-- **Cutting by all sets leads to the groups**, for want of nothing on the way. -/
theorem cutAll_eq (sets : List ByteSet) : cutAll sets = some (ofSets sets) := by
  rw [cutAll, whole_eq_byKey, cutAll_byKey, ofSets_eq_byKey, Option.some_inj]
  refine byKey_congr fun a b => ?_
  rw [Prod.mk.injEq, signature_eq_iff, signature_eq_iff]
  simp only [List.mem_eraseDups, true_and]

end Cut

/-! ### The bytes of each group

One pass over ascending bytes puts each byte into the set of its group. -/

section Gather

variable {g : ByteGroups} {met : List UInt8} {b : UInt8} {i : Nat} {sets : List ByteSet}

/-- The bytes of each group among those of a list. -/
def gathered (g : ByteGroups) (bytes : List UInt8) : Array ByteSet :=
  ((List.range g.count).map fun i => ByteSet.ofList (bytes.filter fun b => g.group b == i)).toArray

theorem getElem?_gathered (h : i < g.count) :
    (g.gathered met)[i]? = some (ByteSet.ofList (met.filter fun b => g.group b == i)) := by
  simp [gathered, h]

/-- Meeting one more byte adds it to the set of its group and leaves the others. -/
theorem collect_gathered (htable : g.table[b.toNat]? = some (g.group b))
    (hlt : g.group b < g.count) :
    g.collect (g.gathered met) b = some (g.gathered (met ++ [b])) := by
  rw [collect, htable, Option.bind_eq_bind, Option.bind_some, getElem?_gathered hlt,
    Option.bind_eq_bind, Option.bind_some, Option.some_inj]
  refine Array.ext_getElem? fun i => ?_
  have hsize (bytes : List UInt8) : (g.gathered bytes).size = g.count := by simp [gathered]
  rw [Array.getElem?_setIfInBounds, hsize, if_pos hlt]
  split
  · next heq =>
    subst heq
    rw [getElem?_gathered hlt, List.filter_append, List.filter_cons_of_pos (by simp),
      List.filter_nil, ByteSet.ofList, ByteSet.ofList, List.foldl_append]
    rfl
  · next hne =>
    rcases Nat.lt_or_ge i g.count with hi | hi
    · rw [getElem?_gathered hi, getElem?_gathered hi, List.filter_append,
        List.filter_cons_of_neg (by simpa using hne), List.filter_nil, List.append_nil]
    · rw [Array.getElem?_eq_none (by rwa [hsize]), Array.getElem?_eq_none (by rwa [hsize])]

/-- Each byte enters the set of its group. -/
theorem foldlM_collect (htable : ∀ b : UInt8, g.table[b.toNat]? = some (g.group b))
    (hlt : ∀ b, g.group b < g.count) (rest : List UInt8) :
    rest.foldlM g.collect (g.gathered met) = some (g.gathered (met ++ rest)) := by
  induction rest generalizing met with
  | nil => rw [List.append_nil]; rfl
  | cons b rest ih =>
    rw [List.foldlM_cons, collect_gathered (htable b) (hlt b), Option.bind_eq_bind,
      Option.bind_some, ih, List.append_assoc]
    rfl

/-- **One pass collects the bytes of each group.** -/
theorem gather_ofSets (sets : List ByteSet) :
    (ofSets sets).gather = some (ofSets sets).sets.toArray := by
  have hstart : Array.replicate (ofSets sets).count ByteSet.empty = (ofSets sets).gathered [] := by
    simp [gathered, ByteSet.ofList, List.map_const']
  have htable : ∀ b : UInt8, (ofSets sets).table[b.toNat]? = some ((ofSets sets).group b) :=
    getElem?_byKey _
  rw [gather, hstart, foldlM_collect htable group_lt_count]
  rfl

end Gather

/-! ### The coarsest groups

Any other groups that no set cuts are finer: bytes that they put together have the same signature.
So the groups of the library are the coarsest, and their sets partition the bytes such that each set
is a union of some of them. -/

/-- The groups of a numbering are the coarsest that no set of a list cuts, and their numbers have no
gap. -/
structure IsCoarsest (g : ByteGroups) (sets : List ByteSet) : Prop where
  group_eq_iff : ∀ a b, g.group a = g.group b ↔ ∀ s ∈ sets, s.contains a = s.contains b
  used_iff : ∀ i, (∃ b, g.group b = i) ↔ i < g.count
  count_pos : 1 ≤ g.count
  count_le : g.count ≤ 256

/-- Two bytes are in one group when no set tells them apart, and each number below the count is
used. -/
theorem isCoarsest_ofSets (sets : List ByteSet) : (ofSets sets).IsCoarsest sets where
  group_eq_iff _ _ := group_eq_iff
  used_iff i := by
    refine ⟨?_, exists_group_eq⟩
    rintro ⟨b, rfl⟩
    exact group_lt_count b
  count_pos := Nat.zero_lt_of_lt (group_lt_count 0)
  count_le := count_byKey_le _

end ByteGroups

/-- Sets that are not empty, of which each byte belongs to exactly one. -/
structure ByteSet.IsPartition (parts : List ByteSet) : Prop where
  ne_empty : ∀ p ∈ parts, p ≠ ByteSet.empty
  disjoint : parts.Pairwise fun p q => ∀ b, ¬ (p.contains b = true ∧ q.contains b = true)
  covers : ∀ b : UInt8, ∃ p ∈ parts, p.contains b = true

namespace ByteSet

/-- Two sets intersect when they have a byte in common. -/
theorem intersects_iff {s t : ByteSet} :
    s.intersects t = true ↔ ∃ b, s.contains b = true ∧ t.contains b = true := by
  rw [intersects, bne_iff_ne, ne_eq, ← not_iff_not, not_not, not_exists]
  constructor
  · intro h b
    have hbit := congrArg (fun bits => bits.getLsbD b.toNat) h
    simpa [contains] using hbit
  · intro h
    refine BitVec.eq_of_getLsbD_eq fun i hi => ?_
    have hbyte : (UInt8.ofNat i).toNat = i := UInt8.toNat_ofNat_of_lt' hi
    simpa [contains, hbyte] using h (UInt8.ofNat i)

theorem contains_foldl_union {parts : List ByteSet} {s : ByteSet} {b : UInt8} :
    (parts.foldl union s).contains b = true ↔
      s.contains b = true ∨ ∃ p ∈ parts, p.contains b = true := by
  induction parts generalizing s with
  | nil => simp
  | cons p parts ih => simp [ih, or_assoc]

end ByteSet

namespace ByteGroups

variable {sets : List ByteSet}

/-- Each byte is in the set with the number of its group, and in no other. -/
theorem exists_getElem?_sets_iff (b : UInt8) (i : Nat) :
    (∃ p, (ofSets sets).sets[i]? = some p ∧ p.contains b = true) ↔
      (ofSets sets).group b = i := by
  constructor
  · rintro ⟨p, hp, hb⟩
    have hlt : i < (ofSets sets).count := by
      simpa only [length_sets] using (List.getElem?_eq_some_iff.1 hp).1
    obtain rfl := Option.some.inj ((getElem?_sets hlt).symm.trans hp)
    simpa using hb
  · rintro rfl
    exact ⟨_, getElem?_sets (group_lt_count b), by simp⟩

/-- The sets of the groups, by their numbers. -/
theorem mem_sets_iff (p : ByteSet) :
    p ∈ (ofSets sets).sets ↔
      ∃ i < (ofSets sets).count, p = ByteSet.ofPred fun b => (ofSets sets).group b == i := by
  simp [ByteGroups.sets, eq_comm]

/-- The sets of the groups are not empty, do not overlap, and leave no byte out. -/
theorem isPartition_sets (sets : List ByteSet) : ByteSet.IsPartition (ofSets sets).sets where
  ne_empty p hp := by
    obtain ⟨i, hi, rfl⟩ := (mem_sets_iff p).1 hp
    obtain ⟨b, hb⟩ := exists_group_eq hi
    intro hempty
    have hcontains := congrArg (fun s => ByteSet.contains s b) hempty
    simp [hb] at hcontains
  disjoint := by
    refine List.pairwise_map.2 (List.pairwise_lt_range.imp fun {i j} hlt b => ?_)
    simp only [ByteSet.contains_ofPred, beq_iff_eq]
    omega
  covers b :=
    ⟨_, (mem_sets_iff _).2 ⟨_, group_lt_count b, rfl⟩, by simp⟩

/-- The groups with bytes of a set. -/
def within (g : ByteGroups) (s : ByteSet) : List ByteSet := g.sets.filter fun p => p.intersects s

/-- **A set of the list is the union of the groups with bytes of it.** -/
theorem foldl_union_within {s : ByteSet} (hs : s ∈ sets) :
    ((ofSets sets).within s).foldl ByteSet.union ByteSet.empty = s := by
  refine ByteSet.ext fun b => Bool.eq_iff_iff.2 ?_
  rw [ByteSet.contains_foldl_union, ByteSet.contains_empty]
  simp only [within, List.mem_filter, mem_sets_iff, ByteSet.intersects_iff]
  constructor
  · rintro (hfalse | ⟨p, ⟨⟨i, -, rfl⟩, a, ha, hsa⟩, hb⟩)
    · cases hfalse
    · rw [ByteSet.contains_ofPred, beq_iff_eq] at ha hb
      rwa [← contains_eq_of_group_eq (ha.trans hb.symm) hs]
  · intro hb
    have hself : (ByteSet.ofPred fun c => (ofSets sets).group c == (ofSets sets).group b).contains
        b = true := by simp
    exact .inr ⟨_, ⟨⟨_, group_lt_count b, rfl⟩, b, hself, hb⟩, hself⟩

/-- **The groups of a list of sets are the coarsest that no set cuts.**  Cutting by one set after
the other finds them and never runs out of numbers, and one pass collects their bytes.  The sets of
these are not empty and have no byte in common, every byte is in one of them, and every set of the
list is a union of some. -/
theorem coarsest (sets : List ByteSet) :
    cutAll sets = some (ofSets sets) ∧
    (ofSets sets).gather = some (ofSets sets).sets.toArray ∧
    (ofSets sets).IsCoarsest sets ∧
    (∀ b i, (∃ p, (ofSets sets).sets[i]? = some p ∧ p.contains b = true) ↔
      (ofSets sets).group b = i) ∧
    ByteSet.IsPartition (ofSets sets).sets ∧
    ∀ s ∈ sets, ∃ parts : List ByteSet, parts.Sublist (ofSets sets).sets ∧
      s = parts.foldl ByteSet.union ByteSet.empty :=
  ⟨cutAll_eq sets, gather_ofSets sets, isCoarsest_ofSets sets, exists_getElem?_sets_iff,
    isPartition_sets sets, fun s hs =>
      ⟨(ofSets sets).within s, List.filter_sublist, (foldl_union_within hs).symm⟩⟩

/-- Of decimal and hexadecimal digits, `1` and `7` are in one group and `a` is in another, and the
decimal digits are a union of groups. -/
theorem coarsest_hexadecimalDigits :
    let digits := ByteSet.range 48 57
    let sets := [digits, digits.insertRange 97 102]
    digits ∈ sets ∧ (ofSets sets).group 49 = (ofSets sets).group 55 ∧
      (ofSets sets).group 49 ≠ (ofSets sets).group 97 ∧
      ∃ parts : List ByteSet, parts.Sublist (ofSets sets).sets ∧
        digits = parts.foldl ByteSet.union ByteSet.empty := by
  intro digits sets
  have hmem : digits ∈ sets := List.mem_cons_self
  obtain ⟨-, -, hcoarsest, -, -, hunion⟩ := coarsest sets
  have hcontains (b : UInt8) : digits.contains b = (decide (48 ≤ b) && decide (b ≤ 57)) :=
    ByteSet.contains_range 48 57 b
  refine ⟨hmem, (hcoarsest.group_eq_iff 49 55).2 ?_, fun heq => ?_, hunion digits hmem⟩
  · simp only [sets, List.forall_mem_cons, ByteSet.contains_insertRange, hcontains]
    decide
  · have hsame := (hcoarsest.group_eq_iff 49 97).1 heq digits hmem
    rw [hcontains, hcontains] at hsame
    exact absurd hsame (by decide)

end ByteGroups

end FrontEnd
