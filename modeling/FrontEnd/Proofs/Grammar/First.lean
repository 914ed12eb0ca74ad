import FrontEnd.Proofs.Grammar.Derivation
import FrontEnd.Proofs.Grammar.Resolve
import FrontEnd.Proofs.Sorted
import FrontEnd.Proofs.Worklist
import Mathlib.Algebra.GroupWithZero.Nat
import Mathlib.Algebra.Order.BigOperators.Group.List
import Mathlib.Algebra.Order.Group.Nat

/-!
# First sets

The table of first sets is exact: it holds the terminals that the strings of a sequence can begin
with, no more and no less, and tells whether the sequence derives the empty string.  The rounds that
fill it end by themselves.

## Main Definitions

* `FirstTable.Sound`, `FirstTable.Stable` — what the table claims is derived, and all productions
  agree with it
* `FirstTable.Ascending` — the sets of the table are in order

## Main Statements

* `Grammar.mem_firstOf_iff`, `Grammar.nullable_firstOf_iff` — the first sets are exact
* `exists_stabilizes_firstTable` — the rounds end
* `GrammarDefinition.firstSets_exact` — the first sets of the grammar of a definition

## Design Notes

What the table tells is bounded from both sides.  It is sound from the empty table on, since a round
uses only productions on what has been told before.  When the rounds end, it is stable: no
production tells more about a right-hand side than is known of the left-hand side, and then neither
does a derivation, one step after the other.

The rounds end because each of them, but for the last one, makes the table heavier, and its weight
is bounded by the terminals of the right-hand sides.  No nonterminal has to be productive for any of
this.
-/

namespace FrontEnd

namespace FirstInfo

/-- Everything that is known in the first place is known in the second one. -/
def Le (i j : FirstInfo) : Prop :=
  (∀ t ∈ i.first, t ∈ j.first) ∧ (i.nullable = true → j.nullable = true)

theorem Le.refl (i : FirstInfo) : i.Le i := ⟨fun _ h => h, id⟩

theorem Le.trans {i j k : FirstInfo} (h : i.Le j) (h' : j.Le k) : i.Le k :=
  ⟨fun t ht => h'.1 t (h.1 t ht), fun hn => h'.2 (h.2 hn)⟩

theorem mem_union {i j : FirstInfo} {t : TokenId} :
    t ∈ (i.union j).first ↔ t ∈ i.first ∨ t ∈ j.first := Sorted.mem_union _

theorem nullable_union {i j : FirstInfo} :
    (i.union j).nullable = true ↔ i.nullable = true ∨ j.nullable = true := Bool.or_eq_true_iff

end FirstInfo

/-! ### Sequences

What the table tells about a sequence is described symbol by symbol, and for two sequences one
behind the other.  These descriptions are used in both directions: to see that a sound table tells
only what is derived, and that a stable one tells no more behind a step than in front of it. -/

section Sequences

variable {g : Grammar} {table : FirstTable}

/-- What the table tells about each nonterminal is derived. -/
structure FirstTable.Sound (g : Grammar) (table : FirstTable) : Prop where
  first : ∀ v, ∀ t ∈ (table.info v).first, g.Begins [.nonterminal v] t
  nullable : ∀ v, (table.info v).nullable = true → g.Nullable [.nonterminal v]

/-- The table tells about each left-hand side what it tells about the right-hand side. -/
def FirstTable.Stable (g : Grammar) (table : FirstTable) : Prop :=
  ∀ p ∈ g.productions, (firstOfSeq table p.rhs).Le (table.info p.lhs)

/-- What a sound table tells about a sequence is derived. -/
theorem firstOfSeq_sound (h : table.Sound g) (seq : List Symbol) :
    (∀ t ∈ (firstOfSeq table seq).first, g.Begins seq t) ∧
      ((firstOfSeq table seq).nullable = true → g.Nullable seq) := by
  induction seq with
  | nil => exact ⟨by simp [firstOfSeq], fun _ => .refl⟩
  | cons s rest ih =>
    cases s with
    | terminal t =>
      refine ⟨?_, by simp [firstOfSeq]⟩
      intro u hu
      obtain rfl : u = t := List.mem_singleton.1 hu
      exact ⟨rest, .refl⟩
    | nonterminal v =>
      have hfirst : ∀ t ∈ (table.info v).first, g.Begins (.nonterminal v :: rest) t := by
        intro t ht
        obtain ⟨w, hw⟩ := h.first v t ht
        exact ⟨w ++ rest, hw.append_right rest⟩
      unfold firstOfSeq
      dsimp only
      split
      · next hv =>
        have hnil := h.nullable v hv
        refine ⟨?_, fun hrest => hnil.append (ih.2 hrest)⟩
        intro t ht
        rcases (Sorted.mem_union _).1 ht with ht | ht
        · exact hfirst t ht
        · obtain ⟨w, hw⟩ := ih.1 t ht
          exact ⟨w, hnil.append hw⟩
      · exact ⟨hfirst, by simp⟩

/-- A sequence begins with what its first nonterminal begins with, or with what is behind it, if
that is nullable. -/
theorem mem_firstOfSeq_cons {v : Nat} {rest : List Symbol} {t : TokenId} :
    t ∈ (firstOfSeq table (.nonterminal v :: rest)).first ↔
      t ∈ (table.info v).first ∨
        (table.info v).nullable = true ∧ t ∈ (firstOfSeq table rest).first := by
  rw [firstOfSeq]
  dsimp only
  split
  · next hv => simp [TokenSet.union, Sorted.mem_union, hv]
  · next hv => simp [hv]

/-- A sequence is nullable when its first nonterminal and what is behind it are. -/
theorem nullable_firstOfSeq_cons {v : Nat} {rest : List Symbol} :
    (firstOfSeq table (.nonterminal v :: rest)).nullable = true ↔
      (table.info v).nullable = true ∧ (firstOfSeq table rest).nullable = true := by
  rw [firstOfSeq]
  dsimp only
  split
  · next hv => simp [hv]
  · next hv => simp [hv]

/-- Two sequences begin with what the first one begins with, or with what the second one does, if
the first one is nullable. -/
theorem mem_firstOfSeq_append {seq rest : List Symbol} {t : TokenId} :
    t ∈ (firstOfSeq table (seq ++ rest)).first ↔ t ∈ (firstOfSeq table seq).first ∨
      (firstOfSeq table seq).nullable = true ∧ t ∈ (firstOfSeq table rest).first := by
  induction seq with
  | nil => simp [firstOfSeq]
  | cons s seq ih =>
    cases s with
    | terminal u => simp [firstOfSeq]
    | nonterminal v =>
      rw [List.cons_append, mem_firstOfSeq_cons, mem_firstOfSeq_cons, nullable_firstOfSeq_cons, ih,
        and_or_left, or_assoc, and_assoc]

/-- Two sequences are nullable when both are. -/
theorem nullable_firstOfSeq_append {seq rest : List Symbol} :
    (firstOfSeq table (seq ++ rest)).nullable = true ↔
      (firstOfSeq table seq).nullable = true ∧ (firstOfSeq table rest).nullable = true := by
  induction seq with
  | nil => simp [firstOfSeq]
  | cons s seq ih =>
    cases s with
    | terminal u => simp [firstOfSeq]
    | nonterminal v =>
      rw [List.cons_append, nullable_firstOfSeq_cons, nullable_firstOfSeq_cons, ih, and_assoc]

/-- What covers a sequence covers it behind any symbols. -/
theorem firstOfSeq_append_le {seq seq' : List Symbol}
    (h : (firstOfSeq table seq).Le (firstOfSeq table seq')) (u : List Symbol) :
    (firstOfSeq table (u ++ seq)).Le (firstOfSeq table (u ++ seq')) := by
  constructor
  · intro t ht
    rw [mem_firstOfSeq_append] at ht ⊢
    exact ht.imp_right (And.imp_right (h.1 t))
  · intro hn
    rw [nullable_firstOfSeq_append] at hn ⊢
    exact hn.imp_right h.2

/-- What is known of a nonterminal covers a sequence of which no more is known. -/
theorem firstOfSeq_append_le_cons {seq : List Symbol} {v : Nat}
    (h : (firstOfSeq table seq).Le (table.info v)) (rest : List Symbol) :
    (firstOfSeq table (seq ++ rest)).Le (firstOfSeq table (.nonterminal v :: rest)) := by
  constructor
  · intro t ht
    rw [mem_firstOfSeq_append] at ht
    rw [mem_firstOfSeq_cons]
    exact ht.imp (h.1 t) (And.imp_left h.2)
  · intro hn
    rw [nullable_firstOfSeq_append] at hn
    rw [nullable_firstOfSeq_cons]
    exact hn.imp_left h.2

/-- One step of a derivation tells no more than what is known before. -/
theorem firstOfSeq_le_of_produces (h : table.Stable g) {seq seq' : List Symbol}
    (hstep : g.Produces seq seq') : (firstOfSeq table seq').Le (firstOfSeq table seq) := by
  obtain ⟨u, v, hp⟩ := hstep
  exact firstOfSeq_append_le (firstOfSeq_append_le_cons (h _ hp) v) u

/-- A whole derivation tells no more than what is known before.  The induction is on its steps. -/
theorem firstOfSeq_le_of_derives (h : table.Stable g) {seq seq' : List Symbol}
    (hderives : g.Derives seq seq') : (firstOfSeq table seq').Le (firstOfSeq table seq) := by
  induction hderives with
  | refl => exact .refl _
  | tail _ hstep ih => exact (firstOfSeq_le_of_produces h hstep).trans ih

end Sequences

/-! ### The table

The measure of a round is the weight of the table, which counts everything that is known of some
nonterminal.  A round never lowers it, and keeps it only when it changes nothing at all; a table
that stays within the terminals of the right-hand sides has a bounded weight. -/

section Table

variable {productions : List Production} {table : FirstTable}

/-- How much is known of a nonterminal. -/
def FirstInfo.weight (i : FirstInfo) : Nat := i.first.length + i.nullable.toNat

/-- How much is known of all nonterminals. -/
def FirstTable.weight (table : FirstTable) : Nat := (table.toList.map FirstInfo.weight).sum

/-- A union tells more, or it is the same. -/
theorem FirstInfo.union_eq_or_weight_lt (i j : FirstInfo) :
    i.union j = i ∨ i.weight < (i.union j).weight := by
  obtain ⟨first, nullable⟩ := i
  have hle : nullable.toNat ≤ (nullable || j.nullable).toNat := by
    cases nullable
    · exact Nat.zero_le _
    · exact le_rfl
  unfold FirstInfo.union FirstInfo.weight TokenSet.union
  dsimp only
  rcases Sorted.union_eq_or_length_lt TokenSet.before first j.first with h | h
  · rw [h]
    cases nullable with
    | true => exact .inl rfl
    | false =>
      cases j.nullable with
      | false => exact .inl rfl
      | true => exact .inr (Nat.lt_succ_self _)
  · exact .inr (by omega)

/-- When a change of one element makes it heavier or has no effect, so does the change of the
list. -/
theorem modify_eq_or_sum_lt {α : Type} {weight : α → Nat} {f : α → α}
    (hf : ∀ a, f a = a ∨ weight a < weight (f a)) (l : List α) (i : Nat) :
    l.modify i f = l ∨ (l.map weight).sum < ((l.modify i f).map weight).sum := by
  induction l generalizing i with
  | nil => exact .inl (by simp)
  | cons a l ih =>
    cases i with
    | zero =>
      rw [List.modify_zero_cons]
      rcases hf a with h | h
      · exact .inl (by rw [h])
      · exact .inr (by simpa using h)
    | succ i =>
      rw [List.modify_succ_cons]
      rcases ih i with h | h
      · exact .inl (by rw [h])
      · exact .inr (by simpa using h)

/-- A production makes the table heavier, or it has no effect. -/
theorem modify_eq_or_weight_lt (p : Production) (table : FirstTable) :
    (table.modify p.lhs fun i => i.union (firstOfSeq table p.rhs)) = table ∨ table.weight <
      FirstTable.weight (table.modify p.lhs fun i => i.union (firstOfSeq table p.rhs)) := by
  unfold FirstTable.weight
  rw [← Array.toList_inj, Array.toList_modify]
  exact modify_eq_or_sum_lt (fun i => i.union_eq_or_weight_lt _) _ _

/-- A round makes the table heavier, or it has no effect. -/
theorem extendFirst_eq_or_weight_lt (productions : List Production) (table : FirstTable) :
    extendFirst productions table = table ∨
      table.weight < (extendFirst productions table).weight :=
  foldl_eq_or_size_lt FirstTable.weight (fun table p => modify_eq_or_weight_lt p table) _ table

/-- When a round changes nothing, no production does. -/
theorem modify_eq_of_extendFirst_eq (h : extendFirst productions table = table) :
    ∀ p ∈ productions, (table.modify p.lhs fun i => i.union (firstOfSeq table p.rhs)) = table :=
  eq_of_foldl_eq FirstTable.weight (fun table p => modify_eq_or_weight_lt p table) h

/-- There is an entry for each nonterminal, and what it holds without repetitions are terminals of
the right-hand sides. -/
structure FirstTable.Within (count : Nat) (productions : List Production) (table : FirstTable) :
    Prop where
  size_eq : table.size = count
  nodup : ∀ i ∈ table, i.first.Nodup
  subset : ∀ i ∈ table, i.first ⊆ usedTerminals productions

/-- There are no more terminals in right-hand sides than symbols. -/
theorem length_usedTerminals_le (productions : List Production) :
    (usedTerminals productions).length ≤ totalLength productions := by
  unfold usedTerminals totalLength
  rw [List.length_flatMap, List.length_flatMap]
  apply List.sum_le_sum
  intro p _
  exact List.length_filterMap_le _ _

/-- What is within the terminals of right-hand sides is bounded: each nonterminal knows each of them
at most once. -/
theorem FirstTable.Within.weight_le {count : Nat} (h : table.Within count productions) :
    table.weight ≤ count * (totalLength productions + 1) := by
  have hle : ∀ n ∈ table.toList.map FirstInfo.weight, n ≤ totalLength productions + 1 := by
    intro n hn
    obtain ⟨i, hi, rfl⟩ := List.mem_map.1 hn
    have hi : i ∈ table := Array.mem_toList_iff.1 hi
    have hlength := ((h.nodup i hi).subperm (h.subset i hi)).length_le
    have hused := length_usedTerminals_le productions
    have hnull : i.nullable.toNat ≤ 1 := Bool.toNat_le i.nullable
    unfold FirstInfo.weight
    omega
  have hsum := List.sum_le_card_nsmul _ _ hle
  simpa [FirstTable.weight, h.size_eq] using hsum

/-- A change of one entry changes what is known of one nonterminal. -/
theorem info_modify {p : Nat} {f : FirstInfo → FirstInfo} {v : Nat} :
    FirstTable.info (table.modify p f) v =
      if v = p ∧ p < table.size then f (table.info v) else table.info v := by
  unfold FirstTable.info
  simp only [Array.getD_eq_getD_getElem?, Array.getElem?_modify]
  by_cases hvp : p = v
  · subst hvp
    by_cases hlt : p < table.size
    · simp [hlt]
    · simp [hlt]
  · simp [hvp, Ne.symm hvp]

/-- What is known of a nonterminal are terminals of right-hand sides, each of them once. -/
theorem FirstTable.Within.info {count : Nat} (h : table.Within count productions) (v : Nat) :
    (table.info v).first.Nodup ∧ (table.info v).first ⊆ usedTerminals productions := by
  unfold FirstTable.info
  rw [Array.getD_eq_getD_getElem?]
  cases hv : table[v]? with
  | none => simp [FirstInfo.nothing]
  | some i => exact ⟨h.nodup i (Array.mem_of_getElem? hv), h.subset i (Array.mem_of_getElem? hv)⟩

/-- What is told about a sequence are terminals of right-hand sides, if its own terminals are. -/
theorem FirstTable.Within.firstOfSeq_subset {count : Nat} (h : table.Within count productions)
    {seq : List Symbol} (hseq : ∀ t, .terminal t ∈ seq → t ∈ usedTerminals productions) :
    (firstOfSeq table seq).first ⊆ usedTerminals productions := by
  induction seq with
  | nil => simp [firstOfSeq]
  | cons s rest ih =>
    intro u hu
    cases s with
    | terminal t =>
      obtain rfl : u = t := List.mem_singleton.1 hu
      exact hseq u List.mem_cons_self
    | nonterminal v =>
      rcases mem_firstOfSeq_cons.1 hu with hu | ⟨-, hu⟩
      · exact (h.info v).2 hu
      · exact ih (fun t ht => hseq t (List.mem_cons_of_mem _ ht)) hu

/-- What is told about a sequence has no repetitions. -/
theorem FirstTable.Within.nodup_firstOfSeq {count : Nat} (h : table.Within count productions)
    (seq : List Symbol) : (firstOfSeq table seq).first.Nodup := by
  cases seq with
  | nil => exact List.nodup_nil
  | cons s rest =>
    cases s with
    | terminal t => exact List.nodup_singleton t
    | nonterminal v =>
      unfold firstOfSeq
      dsimp only
      split
      · exact Sorted.nodup_union (h.info v).1 _
      · exact (h.info v).1

/-- The terminals of a right-hand side are used. -/
theorem mem_usedTerminals {p : Production} (hp : p ∈ productions) {t : TokenId}
    (ht : .terminal t ∈ p.rhs) : t ∈ usedTerminals productions :=
  List.mem_flatMap.2 ⟨p, hp, List.mem_filterMap.2 ⟨_, ht, rfl⟩⟩

/-- A production tells about terminals of right-hand sides only. -/
theorem FirstTable.Within.modify {count : Nat} (h : table.Within count productions)
    {p : Production} (hp : p ∈ productions) :
    FirstTable.Within count productions
      (table.modify p.lhs fun i => i.union (firstOfSeq table p.rhs)) := by
  have hmem : ∀ i ∈ table.modify p.lhs fun i => i.union (firstOfSeq table p.rhs),
      ∃ j ∈ table, i = j ∨ i = j.union (firstOfSeq table p.rhs) := by
    intro i hi
    obtain ⟨k, hk, rfl⟩ := Array.mem_iff_getElem.1 hi
    have hk' : k < table.size := by simpa using hk
    refine ⟨table[k], Array.getElem_mem hk', ?_⟩
    rw [Array.getElem_modify]
    split
    · exact .inr rfl
    · exact .inl rfl
  refine ⟨by rw [Array.size_modify, h.size_eq], ?_, ?_⟩
  · intro i hi
    obtain ⟨j, hj, rfl | rfl⟩ := hmem i hi
    · exact h.nodup i hj
    · exact Sorted.nodup_union (h.nodup j hj) _
  · intro i hi t ht
    obtain ⟨j, hj, rfl | rfl⟩ := hmem i hi
    · exact h.subset i hj ht
    · rcases FirstInfo.mem_union.1 ht with ht | ht
      · exact h.subset j hj ht
      · exact h.firstOfSeq_subset (fun t ht => mem_usedTerminals hp ht) ht

/-- A round tells about terminals of right-hand sides only. -/
theorem FirstTable.Within.extendFirst {count : Nat} (h : table.Within count productions) :
    FirstTable.Within count productions (extendFirst productions table) := by
  unfold FrontEnd.extendFirst
  refine List.foldlRecOn productions _ h ?_
  intro table htable p hp
  exact htable.modify hp

/-- Nothing is known at the start. -/
theorem FirstTable.info_replicate (count v : Nat) :
    FirstTable.info (Array.replicate count FirstInfo.nothing) v = FirstInfo.nothing := by
  unfold FirstTable.info
  rw [Array.getD_eq_getD_getElem?, Array.getElem?_replicate]
  split <;> rfl

/-- The table is within any bounds at the start. -/
theorem FirstTable.within_replicate (count : Nat) (productions : List Production) :
    FirstTable.Within count productions (Array.replicate count FirstInfo.nothing) := by
  have hmem : ∀ i ∈ Array.replicate count FirstInfo.nothing, i = FirstInfo.nothing :=
    fun i hi => (Array.mem_replicate.1 hi).2
  refine ⟨Array.size_replicate, ?_, ?_⟩
  · intro i hi
    rw [hmem i hi]
    exact List.nodup_nil
  · intro i hi
    rw [hmem i hi]
    exact List.nil_subset _

/-- **The rounds that fill the table end.**  All but the last one tell something new, a terminal of
some right-hand side or that the empty string is derived, about one of the nonterminals. -/
theorem exists_stabilizes_firstTable (count : Nat) (productions : List Production) :
    ∃ n ≤ count * (totalLength productions + 1), Stabilizes (extendFirst productions) n
      (Array.replicate count FirstInfo.nothing) (firstTable count productions) := by
  have hwithin := FirstTable.within_replicate count productions
  unfold firstTable
  obtain ⟨n, hn, hrounds⟩ := exists_stabilizes_iterateUntilStable
    (P := FirstTable.Within count productions) FirstTable.weight
    (count * (totalLength productions + 1)) (fun _ h => h.extendFirst)
    (fun _ _ hne => (extendFirst_eq_or_weight_lt _ _).resolve_left hne) (fun _ h => h.weight_le)
    hwithin (show _ ≤ _ + (count * (totalLength productions + 1) + 1) by omega)
  exact ⟨n, by omega, hrounds⟩

/-! ### The order of the sets

Unions of sorted sets are sorted, so that each round keeps the order that the empty table has. -/

/-- Terminals are ordered by their identifications. -/
theorem TokenSet.order_before : Sorted.Order TokenSet.before := by
  refine ⟨?_, ?_, ?_⟩ <;> simp only [TokenSet.before] <;> grind

/-- The sets of the table are in ascending order. -/
def FirstTable.Ascending (table : FirstTable) : Prop :=
  ∀ v, Sorted.IsSorted TokenSet.before (table.info v).first

/-- What is told about a sequence is in order, too. -/
theorem FirstTable.Ascending.firstOfSeq (h : table.Ascending) (seq : List Symbol) :
    Sorted.IsSorted TokenSet.before (firstOfSeq table seq).first := by
  cases seq with
  | nil => exact List.Pairwise.nil
  | cons s rest =>
    cases s with
    | terminal t => exact List.pairwise_singleton _ t
    | nonterminal v =>
      unfold FrontEnd.firstOfSeq
      dsimp only
      split
      · exact Sorted.isSorted_union TokenSet.order_before (h v) _
      · exact h v

/-- A round keeps the order. -/
theorem FirstTable.Ascending.extendFirst (h : table.Ascending) :
    FirstTable.Ascending (extendFirst productions table) := by
  unfold FrontEnd.extendFirst
  refine List.foldlRecOn (motive := FirstTable.Ascending) productions _ h ?_
  intro table htable p _ v
  rw [info_modify]
  split
  · exact Sorted.isSorted_union TokenSet.order_before (htable v) _
  · exact htable v

/-- What every round keeps holds of what the rounds lead to. -/
theorem ascending_firstTable (count : Nat) (productions : List Production) :
    (firstTable count productions).Ascending := by
  obtain ⟨n, -, hrounds⟩ := exists_stabilizes_firstTable count productions
  have hstart : FirstTable.Ascending (Array.replicate count FirstInfo.nothing) := by
    intro v
    rw [FirstTable.info_replicate]
    exact List.Pairwise.nil
  generalize Array.replicate count FirstInfo.nothing = table at hrounds hstart
  generalize firstTable count productions = last at hrounds
  induction hrounds with
  | stop _ => exact hstart
  | round _ _ ih => exact ih hstart.extendFirst

end Table

/-! ### Exactness

A table is sound after any number of rounds and stable after the last one.  The two meet in the
first sets: what is told is derived, and what is derived is told. -/

section Exact

variable {g : Grammar} {table : FirstTable}

/-- A sound table stays sound when a production is used. -/
theorem FirstTable.Sound.modify (h : table.Sound g) {p : Production} (hp : p ∈ g.productions) :
    FirstTable.Sound g (table.modify p.lhs fun i => i.union (firstOfSeq table p.rhs)) := by
  obtain ⟨hfirst, hnull⟩ := firstOfSeq_sound h p.rhs
  constructor
  · intro v t ht
    rw [info_modify] at ht
    split at ht
    · next hv =>
      obtain ⟨rfl, -⟩ := hv
      rcases FirstInfo.mem_union.1 ht with ht | ht
      · exact h.first _ t ht
      · obtain ⟨rest, hrest⟩ := hfirst t ht
        exact ⟨rest, (Grammar.derives_of_mem hp).trans hrest⟩
    · exact h.first v t ht
  · intro v hv
    rw [info_modify] at hv
    split at hv
    · next heq =>
      obtain ⟨rfl, -⟩ := heq
      rcases FirstInfo.nullable_union.1 hv with hv | hv
      · exact h.nullable _ hv
      · exact (Grammar.derives_of_mem hp).trans (hnull hv)
    · exact h.nullable v hv

/-- A sound table stays sound in a round. -/
theorem FirstTable.Sound.extendFirst (h : table.Sound g) :
    FirstTable.Sound g (extendFirst g.productions.toList table) := by
  unfold FrontEnd.extendFirst
  refine List.foldlRecOn g.productions.toList _ h ?_
  intro table htable p hp
  exact htable.modify (Array.mem_toList_iff.1 hp)

/-- The table is sound at the start, as it tells nothing. -/
theorem FirstTable.sound_replicate (g : Grammar) (count : Nat) :
    FirstTable.Sound g (Array.replicate count FirstInfo.nothing) := by
  constructor
  · intro v t ht
    rw [FirstTable.info_replicate] at ht
    cases ht
  · intro v hv
    rw [FirstTable.info_replicate] at hv
    cases hv

/-- The table holds terminals of right-hand sides, it is sound, and all productions agree with
it. -/
theorem firstTable_spec (hlhs : ∀ p ∈ g.productions, p.lhs < g.numNonterminals) :
    (firstTable g.numNonterminals g.productions.toList).Within g.numNonterminals
        g.productions.toList ∧
      (firstTable g.numNonterminals g.productions.toList).Sound g ∧
      (firstTable g.numNonterminals g.productions.toList).Stable g := by
  set productions := g.productions.toList
  set table := firstTable g.numNonterminals productions with htable
  obtain ⟨⟨hwithin, hsound⟩, hstable⟩ : (table.Within g.numNonterminals productions ∧
      table.Sound g) ∧ extendFirst productions table = table := by
    rw [htable]
    unfold firstTable
    refine iterateUntilStable_induction
      (P := fun table => FirstTable.Within g.numNonterminals productions table ∧
        FirstTable.Sound g table)
      FirstTable.weight (g.numNonterminals * (totalLength productions + 1)) ?_ ?_ ?_ ?_ ?_
    · exact fun _ h => ⟨h.1.extendFirst, h.2.extendFirst⟩
    · exact fun _ _ hne => (extendFirst_eq_or_weight_lt _ _).resolve_left hne
    · exact fun _ h => h.1.weight_le
    · exact ⟨FirstTable.within_replicate _ _, FirstTable.sound_replicate _ _⟩
    · omega
  refine ⟨hwithin, hsound, ?_⟩
  intro p hp
  have heq := modify_eq_of_extendFirst_eq hstable p (Array.mem_toList_iff.2 hp)
  have hlt : p.lhs < table.size := hwithin.size_eq ▸ hlhs p hp
  have hinfo := congrArg (FirstTable.info · p.lhs) heq
  rw [info_modify, if_pos ⟨rfl, hlt⟩] at hinfo
  constructor
  · intro t ht
    rw [← hinfo]
    exact FirstInfo.mem_union.2 (.inr ht)
  · intro hn
    rw [← hinfo]
    exact FirstInfo.nullable_union.2 (.inr hn)

/-- A first set has no repetitions. -/
theorem Grammar.nodup_firstOf (h : g.WellFormed) (seq : List Symbol) :
    (g.firstOf seq).first.Nodup := by
  obtain ⟨hwithin, -, -⟩ := firstTable_spec h.lhs_lt
  rw [Grammar.firstOf, h.first_eq]
  exact hwithin.nodup_firstOfSeq seq

/-- A first set has terminals of right-hand sides only, if the terminals of the sequence are among
them. -/
theorem Grammar.firstOf_subset (h : g.WellFormed) {seq : List Symbol}
    (hseq : ∀ t, .terminal t ∈ seq → t ∈ usedTerminals g.productions.toList) :
    (g.firstOf seq).first ⊆ usedTerminals g.productions.toList := by
  obtain ⟨hwithin, -, -⟩ := firstTable_spec h.lhs_lt
  rw [Grammar.firstOf, h.first_eq]
  exact hwithin.firstOfSeq_subset hseq

/-- **The first sets are exact.** -/
theorem Grammar.mem_firstOf_iff (h : g.WellFormed) {seq : List Symbol} {t : TokenId} :
    t ∈ (g.firstOf seq).first ↔ g.Begins seq t := by
  obtain ⟨-, hsound, hstable⟩ := firstTable_spec h.lhs_lt
  rw [Grammar.firstOf, h.first_eq]
  refine ⟨(firstOfSeq_sound hsound seq).1 t, ?_⟩
  rintro ⟨rest, hderives⟩
  exact (firstOfSeq_le_of_derives hstable hderives).1 t List.mem_cons_self

/-- A sequence is told to be nullable exactly when it derives the empty string. -/
theorem Grammar.nullable_firstOf_iff (h : g.WellFormed) {seq : List Symbol} :
    (g.firstOf seq).nullable = true ↔ g.Nullable seq := by
  obtain ⟨-, hsound, hstable⟩ := firstTable_spec h.lhs_lt
  rw [Grammar.firstOf, h.first_eq]
  refine ⟨(firstOfSeq_sound hsound seq).2, ?_⟩
  intro hderives
  exact (firstOfSeq_le_of_derives hstable hderives).2 rfl

/-- With a terminal behind it, a sequence begins as before, or with this terminal. -/
theorem Grammar.begins_append_terminal (h : g.WellFormed) {seq : List Symbol} {a b : TokenId} :
    g.Begins (seq ++ [.terminal a]) b ↔ g.Begins seq b ∨ g.Nullable seq ∧ b = a := by
  rw [← mem_firstOf_iff h, ← mem_firstOf_iff h, ← nullable_firstOf_iff h]
  unfold Grammar.firstOf
  rw [mem_firstOfSeq_append]
  simp [firstOfSeq]

end Exact

/-! ### First sets of a definition -/

/-- **The first sets of the grammar of a definition are exact.**  The rounds that fill the table end
by themselves.  A sequence of symbols has, in ascending order, the terminals that what it derives
can begin with, and is nullable when it derives the empty string; so does each nonterminal, also one
that derives no sentence. -/
theorem GrammarDefinition.firstSets_exact {d : GrammarDefinition} {g : Grammar} (hd : d.Reachable)
    (h : d.resolve = .ok g) :
    (∃ n ≤ g.numNonterminals * (totalLength g.productions.toList + 1),
      Stabilizes (extendFirst g.productions.toList) n
        (Array.replicate g.numNonterminals FirstInfo.nothing) g.first) ∧
    (∀ seq, (g.firstOf seq).first.Pairwise (· < ·) ∧
      (∀ t, t ∈ (g.firstOf seq).first ↔ g.Begins seq t) ∧
      ((g.firstOf seq).nullable = true ↔ g.Nullable seq)) ∧
    ∀ v, (∀ t, t ∈ (g.first.info v).first ↔ g.Begins [.nonterminal v] t) ∧
      ((g.first.info v).nullable = true ↔ g.Nullable [.nonterminal v]) := by
  have hg := d.wellFormed_of_resolve hd h
  have hascending : g.first.Ascending := hg.first_eq ▸ ascending_firstTable _ _
  have hseq : ∀ seq, (∀ t, t ∈ (g.firstOf seq).first ↔ g.Begins seq t) ∧
      ((g.firstOf seq).nullable = true ↔ g.Nullable seq) :=
    fun seq => ⟨fun t => Grammar.mem_firstOf_iff hg, Grammar.nullable_firstOf_iff hg⟩
  -- what is known of a nonterminal is what is known of the sequence that it is
  have hsingle : ∀ v, (∀ t, t ∈ (g.first.info v).first ↔
        t ∈ (g.firstOf [.nonterminal v]).first) ∧
      ((g.first.info v).nullable = true ↔ (g.firstOf [.nonterminal v]).nullable = true) := by
    intro v
    refine ⟨fun t => ?_, ?_⟩
    · rw [Grammar.firstOf, mem_firstOfSeq_cons]
      simp [firstOfSeq]
    · rw [Grammar.firstOf, nullable_firstOfSeq_cons]
      simp [firstOfSeq]
  refine ⟨?_, fun seq => ⟨?_, hseq seq⟩, fun v => ⟨fun t => ?_, ?_⟩⟩
  · rw [hg.first_eq]
    exact exists_stabilizes_firstTable _ _
  · exact (hascending.firstOfSeq seq).imp of_decide_eq_true
  · rw [(hsingle v).1, (hseq _).1]
  · rw [(hsingle v).2, (hseq _).2]

/-- Steps, of which each can be empty, and a loop without an end. -/
def stepsAndLoops : GrammarDefinition :=
  (((((GrammarDefinition.empty.declareTokens "go stop done").2.addProductions "program"
    "steps done | loop").2.addProductions "steps" "steps step | %empty").2.addProductions "step"
      "go | %empty").2.addProductions "loop" "steps loop stop").2

/-- A loop, which derives no sentence, begins with a step, and not with what stands behind the next
loop. -/
theorem GrammarDefinition.firstSets_exact_stepsAndLoops :
    ∃ g, stepsAndLoops.resolve = .ok g ∧ g.Nullable [.nonterminal 1, .nonterminal 2] ∧
      g.Begins [.nonterminal 3] 1 ∧ ¬ g.Begins [.nonterminal 3] 2 ∧
      ¬ g.Nullable [.nonterminal 3] := by
  have hfirst : (match stepsAndLoops.resolve with
      | .ok g => some (g.firstOf [.nonterminal 1, .nonterminal 2], g.first.info 3)
      | .error _ => none) = some (⟨[1], true⟩, ⟨[1], false⟩) := by decide +kernel
  have hd : stepsAndLoops.Reachable :=
    .productions _ _ (.productions _ _ (.productions _ _ (.productions _ _ (.tokens _ .empty))))
  split at hfirst
  · next g hresolve =>
    obtain ⟨hsteps, hloop⟩ := Prod.mk.inj (Option.some.inj hfirst)
    obtain ⟨-, hseq, hnonterminal⟩ := firstSets_exact hd hresolve
    obtain ⟨hbegins, hnullable⟩ := hnonterminal 3
    refine ⟨g, hresolve, ?_, ?_, ?_, ?_⟩
    · rw [← (hseq _).2.2, hsteps]
    · rw [← hbegins, hloop]
      exact List.mem_singleton_self _
    · rw [← hbegins, hloop]
      decide
    · rw [← hnullable, hloop]
      decide
  · cases hfirst

end FrontEnd
