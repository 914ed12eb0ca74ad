import FrontEnd.ByteSet.Groups
import FrontEnd.Proofs.Lists

/-!
# Groups are told apart by the sets only

The group of a byte is the place of its signature among all signatures.  So two bytes of one group
belong to the same sets of the list, and each group has a least byte that stands for all of it.

## Main Definitions

* `ByteGroups.byKey` — bytes grouped by what a function says of them

## Main Statements

* `ByteGroups.group_eq_iff` — two bytes are in one group exactly when no set tells them apart
* `ByteGroups.exists_representative` — each group has a byte that stands for it
-/

namespace FrontEnd

theorem length_allBytes : allBytes.length = 256 := by simp [allBytes]

theorem getElem?_allBytes (b : UInt8) : allBytes[b.toNat]? = some b := by
  simp [allBytes, b.toNat_lt]

namespace ByteGroups

/-! ### Bytes grouped by a key

All that is said of the groups of some sets follows from what a function says of the bytes.  So the
numbering is described for any function, and other ways to find the same groups are compared with it
through their keys. -/

section ByKey

variable {α : Type} [BEq α] {f : UInt8 → α} {a b : UInt8} {i : Nat}

/-- Bytes grouped by what a function says of them. -/
def byKey (f : UInt8 → α) : ByteGroups :=
  ⟨(numberByFirst (allBytes.map f)).toArray, (allBytes.map f).eraseDups.length⟩

/-- The group of a byte is the place of its key. -/
theorem group_byKey (f : UInt8 → α) (b : UInt8) :
    (byKey f).group b = (allBytes.map f).eraseDups.idxOf (f b) := by
  simp [group, byKey, numberByFirst, getElem?_allBytes]

theorem size_byKey (f : UInt8 → α) : (byKey f).table.size = 256 := by
  simp [byKey, numberByFirst, allBytes]

theorem getElem?_byKey (f : UInt8 → α) (b : UInt8) :
    (byKey f).table[b.toNat]? = some ((byKey f).group b) := by
  rw [group_byKey]
  simp [byKey, numberByFirst, getElem?_allBytes]

variable [LawfulBEq α]

/-- The key of each byte is among the keys. -/
theorem mem_keys (f : UInt8 → α) (b : UInt8) : f b ∈ (allBytes.map f).eraseDups :=
  List.mem_eraseDups.2 (List.mem_map_of_mem (mem_allBytes b))

/-- Two bytes are in one group exactly when they have the same key. -/
theorem group_byKey_eq_iff : (byKey f).group a = (byKey f).group b ↔ f a = f b := by
  rw [group_byKey, group_byKey, List.idxOf_inj (mem_keys f a)]

/-- The number of a group is below the number of groups. -/
theorem group_byKey_lt (f : UInt8 → α) (b : UInt8) : (byKey f).group b < (byKey f).count := by
  rw [group_byKey]
  exact List.idxOf_lt_length_of_mem (mem_keys f b)

theorem lt_count_byKey (h : i ∈ (byKey f).table) : i < (byKey f).count := by
  obtain ⟨k, hk, rfl⟩ := List.mem_map.1 (List.mem_toArray.1 h)
  exact List.idxOf_lt_length_of_mem (List.mem_eraseDups.2 hk)

/-- No number is left out: each key comes from a byte. -/
theorem exists_group_byKey_eq (h : i < (byKey f).count) : ∃ b, (byKey f).group b = i := by
  obtain ⟨b, -, hb⟩ := List.mem_map.1 (List.mem_eraseDups.1 (List.getElem_mem h))
  refine ⟨b, ?_⟩
  rw [group_byKey, hb]
  exact (nodup_eraseDups _).idxOf_getElem i h

/-- There are no more groups than bytes. -/
theorem count_byKey_le (f : UInt8 → α) : (byKey f).count ≤ 256 := by
  calc (allBytes.map f).eraseDups.length
    _ ≤ (allBytes.map f).length := length_eraseDups_le _
    _ = 256 := by rw [List.length_map, length_allBytes]

end ByKey

/-! ### The groups of some sets

The key of a byte is its signature, which tells for each set whether the byte belongs to it.
Repeated sets add nothing to a signature. -/

variable {sets : List ByteSet}

/-- The groups of some sets are those by signatures. -/
theorem ofSets_eq_byKey (sets : List ByteSet) :
    ofSets sets = byKey (ByteSet.signature sets.eraseDups) := rfl

/-- Two bytes have the same signature when each set has both of them or neither. -/
theorem signature_eq_iff {a b : UInt8} :
    ByteSet.signature sets a = ByteSet.signature sets b ↔
      ∀ s ∈ sets, s.contains a = s.contains b := List.map_inj_left

/-- **Two bytes are in one group exactly when no set of the list tells them apart.** -/
theorem group_eq_iff {a b : UInt8} :
    (ofSets sets).group a = (ofSets sets).group b ↔ ∀ s ∈ sets, s.contains a = s.contains b := by
  rw [ofSets_eq_byKey, group_byKey_eq_iff, signature_eq_iff]
  simp only [List.mem_eraseDups]

theorem contains_eq_of_group_eq {a b : UInt8}
    (h : (ofSets sets).group a = (ofSets sets).group b) {s : ByteSet} (hs : s ∈ sets) :
    s.contains a = s.contains b := group_eq_iff.1 h s hs

/-- The group of a byte is one of the groups. -/
theorem group_lt_count (b : UInt8) : (ofSets sets).group b < (ofSets sets).count :=
  group_byKey_lt _ b

theorem size_table (sets : List ByteSet) : (ofSets sets).table.size = 256 := size_byKey _

theorem lt_count_of_mem_table {i : Nat} (h : i ∈ (ofSets sets).table) :
    i < (ofSets sets).count := lt_count_byKey h

/-- Each group has a byte. -/
theorem exists_group_eq {i : Nat} (h : i < (ofSets sets).count) :
    ∃ b, (ofSets sets).group b = i := exists_group_byKey_eq h

@[simp] theorem length_representatives (g : ByteGroups) : g.representatives.length = g.count := by
  simp [representatives]

theorem getElem?_sets {g : ByteGroups} {i : Nat} (h : i < g.count) :
    g.sets[i]? = some (ByteSet.ofPred fun b => g.group b == i) := by
  simp [ByteGroups.sets, h]

@[simp] theorem length_sets (g : ByteGroups) : g.sets.length = g.count := by
  simp [ByteGroups.sets]

theorem getElem?_representatives {g : ByteGroups} {i : Nat} (h : i < g.count) :
    g.representatives[i]? = some ((allBytes.find? fun b => g.group b == i).getD 0) := by
  simp [representatives, h]

/-- Each group has a byte that stands for it. -/
theorem exists_representative {i : Nat} (h : i < (ofSets sets).count) :
    ∃ b, (ofSets sets).representatives[i]? = some b ∧ (ofSets sets).group b = i := by
  obtain ⟨a, ha⟩ := exists_group_eq h
  have hsome : (allBytes.find? fun b => (ofSets sets).group b == i).isSome := by
    rw [List.find?_isSome]
    exact ⟨a, mem_allBytes a, by simpa using ha⟩
  obtain ⟨b, hb⟩ := Option.isSome_iff_exists.1 hsome
  refine ⟨b, ?_, by simpa using List.find?_some hb⟩
  rw [getElem?_representatives h, hb, Option.getD_some]

/-- A pair of a group and its byte gathers the bytes that no set of the list tells apart from this
one. -/
theorem contains_iff_of_mem_zip {p : ByteSet × UInt8}
    (hp : p ∈ (ofSets sets).sets.zip (ofSets sets).representatives) (b : UInt8) :
    p.1.contains b = true ↔ (ofSets sets).group p.2 = (ofSets sets).group b := by
  obtain ⟨i, hi⟩ := List.mem_iff_getElem?.1 hp
  rw [List.getElem?_zip_eq_some] at hi
  obtain ⟨hset, hrep⟩ := hi
  have hcount : i < (ofSets sets).count := by
    simpa only [length_sets] using (List.getElem?_eq_some_iff.1 hset).1
  obtain ⟨a, ha, hgroup⟩ := exists_representative hcount
  obtain rfl : a = p.2 := Option.some.inj (ha.symm.trans hrep)
  rw [getElem?_sets hcount] at hset
  rw [← Option.some.inj hset, ByteSet.contains_ofPred, hgroup, beq_iff_eq, eq_comm]

/-- Every byte is in the group of some pair. -/
theorem exists_mem_zip (sets : List ByteSet) (b : UInt8) :
    ∃ p ∈ (ofSets sets).sets.zip (ofSets sets).representatives, p.1.contains b = true := by
  have hlt : (ofSets sets).group b < (ofSets sets).count := group_lt_count b
  obtain ⟨a, ha, hgroup⟩ := exists_representative hlt
  refine ⟨(ByteSet.ofPred fun c => (ofSets sets).group c == (ofSets sets).group b, a),
    List.mem_of_getElem? (List.getElem?_zip_eq_some.2 ⟨getElem?_sets hlt, ha⟩), ?_⟩
  rw [ByteSet.contains_ofPred, beq_self_eq_true]

end ByteGroups

end FrontEnd
