import FrontEnd.Dfa
import FrontEnd.Proofs.Lists
import FrontEnd.Proofs.Nfa.Path
import Mathlib.Order.Bounds.Basic

/-!
# Determinization

Each state of the deterministic automaton stands for a set of states.  One byte leads from the
state of a set to the state of the set behind the byte, or to the dead state when that set is empty.

## Main Definitions

* `Dfa.Subsets.Valid` — the numbers of the sets that have been met are their places
* `Dfa.Explored` — all sets that can be met have been numbered and have a row
* `Dfa.buildWithin` — the construction with any bound on its rounds
* `Dfa.Shows` — the states of the automaton stand for the sets of a list
* `Dfa.LeastOf` — the least element of a set, if it has one

## Main Statements

* `Dfa.exists_explored`, `Dfa.buildWithin_eq_build` — the construction ends within its bound
* `Dfa.exists_shows_build` — the automaton stands for the sets that its construction has met
* `Dfa.leastOf_chosen` — the rule of a set is the least one that a state of it accepts
-/

namespace FrontEnd

namespace Dfa

/-! ### Numbered sets

Sets of states get numbers in the order in which they are met.  A set keeps its number, and the
number leads back to the set; so what is known of the tables of some sets stays known while others
are met. -/

/-- The number of each set that has been met is its place, there are only states below the bound,
and the empty set has no number. -/
structure Subsets.Valid (n : Nat) (subsets : Subsets) : Prop where
  numbers_iff : ∀ (s : StateSet) (i : Nat),
    subsets.numbers[s.bits]? = some i ↔ subsets.found[i]? = some s
  within : ∀ (i : Nat) (s : StateSet), subsets.found[i]? = some s → s.Within n
  inhabited : ∀ (i : Nat) (s : StateSet), subsets.found[i]? = some s → s.isEmpty = false

/-- The sets keep their numbers. -/
def Subsets.Extends (subsets subsets' : Subsets) : Prop :=
  ∀ (i : Nat) (s : StateSet), subsets.found[i]? = some s → subsets'.found[i]? = some s

/-- The number that a set has, or none for an empty set. -/
def Subsets.Numbers (subsets : Subsets) (s : StateSet) : Option Nat → Prop
  | none => s.isEmpty = true
  | some i => subsets.found[i]? = some s

namespace Subsets

variable {n : Nat} {subsets subsets' subsets'' : Subsets}

theorem Extends.refl (subsets : Subsets) : subsets.Extends subsets := fun _ _ h => h

theorem Extends.trans (h : subsets.Extends subsets') (h' : subsets'.Extends subsets'') :
    subsets.Extends subsets'' := fun i s hs => h' i s (h i s hs)

/-- A number that stands for a set goes on standing for it. -/
theorem Extends.numbers (h : subsets.Extends subsets') {s : StateSet} {o : Option Nat}
    (hs : subsets.Numbers s o) : subsets'.Numbers s o := by
  cases o with
  | none => exact hs
  | some i => exact h i s hs

/-- Without sets there is nothing to check. -/
theorem valid_empty : Subsets.empty.Valid n := by
  constructor <;> simp [Subsets.empty]

/-- Different places hold different sets. -/
theorem Valid.nodup (h : subsets.Valid n) : subsets.found.toList.Nodup := by
  refine List.nodup_iff_getElem?_ne_getElem?.2 fun i j hij hj heq => ?_
  rw [Array.getElem?_toList, Array.getElem?_toList] at heq
  rw [Array.length_toList] at hj
  have hj : subsets.found[j]? = some subsets.found[j] := Array.getElem?_eq_getElem hj
  have hi := (h.numbers_iff _ i).2 (heq.trans hj)
  rw [(h.numbers_iff _ j).2 hj] at hi
  exact absurd (Option.some.inj hi) (Nat.ne_of_gt hij)

theorem Valid.size_le (h : subsets.Valid n) : subsets.found.size ≤ 2 ^ n := by
  refine le_of_eq_of_le (by simp) (StateSet.length_le_two_pow h.nodup fun s hs => ?_)
  obtain ⟨i, hi⟩ := List.mem_iff_getElem?.1 hs
  exact h.within i s (by simpa using hi)

/-- A set that is added has the last place. -/
theorem getElem?_push_iff {i : Nat} {s t : StateSet} :
    (subsets.found.push s)[i]? = some t ↔
      subsets.found[i]? = some t ∨ i = subsets.found.size ∧ t = s := by
  rw [Array.getElem?_push]
  split
  · next h =>
    subst h
    simp [eq_comm]
  · next h => simp [h]

/-- A set gets the number it has, or a new one. -/
theorem Valid.number (h : subsets.Valid n) {s : StateSet} (hs : s.Within n)
    (hne : s.isEmpty = false) :
    (subsets.number s).1.Valid n ∧ subsets.Extends (subsets.number s).1 ∧
      (subsets.number s).1.found[(subsets.number s).2]? = some s := by
  rw [Subsets.number]
  split
  · next i hi => exact ⟨h, .refl _, (h.numbers_iff s i).1 hi⟩
  · next hnone =>
    have hnew : ∀ i : Nat, subsets.found[i]? ≠ some s := fun i hi => by
      rw [(h.numbers_iff s i).2 hi] at hnone
      cases hnone
    refine ⟨⟨fun t i => ?_, fun i t hi => ?_, fun i t hi => ?_⟩,
      fun i t hi => getElem?_push_iff.2 (.inl hi), Array.getElem?_push_size⟩
    · rw [Std.TreeMap.getElem?_insert, getElem?_push_iff]
      by_cases hst : s = t
      · subst hst
        simp [hnew, eq_comm]
      · have hbits : s.bits ≠ t.bits := fun heq => hst (StateSet.bits_injective heq)
        simp [hbits, Ne.symm hst, h.numbers_iff]
    · rcases getElem?_push_iff.1 hi with hi | ⟨-, rfl⟩
      · exact h.within i t hi
      · exact hs
    · rcases getElem?_push_iff.1 hi with hi | ⟨-, rfl⟩
      · exact h.inhabited i t hi
      · exact hne

/-- **All sets of a list get numbers**, and those that have one keep it. -/
theorem Valid.numberAll (h : subsets.Valid n) {sets : List StateSet}
    (hsets : ∀ s ∈ sets, s.Within n) :
    (numberAll subsets sets).1.Valid n ∧ subsets.Extends (numberAll subsets sets).1 ∧
      List.Forall₂ (numberAll subsets sets).1.Numbers sets (numberAll subsets sets).2 := by
  induction sets generalizing subsets with
  | nil => exact ⟨h, .refl _, .nil⟩
  | cons s sets ih =>
    rw [List.forall_mem_cons] at hsets
    rw [Dfa.numberAll]
    split
    · next hs =>
      obtain ⟨hvalid, hext, hall⟩ := ih h hsets.2
      exact ⟨hvalid, hext, .cons hs hall⟩
    · next hne =>
      obtain ⟨hvalid, hext, hs⟩ := h.number hsets.1 (Bool.not_eq_true _ ▸ hne)
      obtain ⟨hvalid', hext', hall⟩ := ih hvalid hsets.2
      exact ⟨hvalid', hext.trans hext', .cons (hext' _ _ hs) hall⟩

end Subsets

/-! ### Rows

The rows are filled in for one set behind the other, and filling in a row meets new sets.  The
invariant says that the row of each set that has been dealt with has the numbers of the sets behind
the bytes. -/

section Rows

variable {nfa : Nfa} {representatives : List UInt8} {subsets : Subsets}

/-- The rows of the first sets have been computed. -/
structure Tabled (nfa : Nfa) (representatives : List UInt8) (subsets : Subsets)
    (table : Array (List (Option Nat))) : Prop where
  size_le : table.size ≤ subsets.found.size
  row : ∀ (i : Nat) (s : StateSet) (r : List (Option Nat)), subsets.found[i]? = some s →
    table[i]? = some r →
      List.Forall₂ subsets.Numbers (representatives.map (nfa.stepFrom s.toList)) r

/-- The row of the next set is added. -/
theorem Tabled.push {subsets' : Subsets} {table : Array (List (Option Nat))} {s : StateSet}
    {row : List (Option Nat)} (h : Tabled nfa representatives subsets table)
    (hext : subsets.Extends subsets') (hs : subsets.found[table.size]? = some s)
    (hrow : List.Forall₂ subsets'.Numbers (representatives.map (nfa.stepFrom s.toList)) row) :
    Tabled nfa representatives subsets' (table.push row) := by
  refine ⟨?_, fun i t r ht hr => ?_⟩
  · rw [Array.size_push]
    exact (Array.getElem?_eq_some_iff.1 (hext _ _ hs)).choose
  · rw [Array.getElem?_push] at hr
    split at hr
    · next hi =>
      obtain rfl := Option.some.inj hr
      obtain rfl : s = t := Option.some.inj ((hext _ _ hs).symm.trans (hi ▸ ht))
      exact hrow
    · next hi =>
      -- an old row keeps its numbers
      have hlt : i < table.size := (Array.getElem?_eq_some_iff.1 hr).choose
      obtain ⟨u, hfound⟩ : ∃ u, subsets.found[i]? = some u :=
        ⟨_, Array.getElem?_eq_getElem (lt_of_lt_of_le hlt h.size_le)⟩
      obtain rfl : u = t := Option.some.inj ((hext _ _ hfound).symm.trans ht)
      exact (h.row i _ r hfound hr).imp fun _ _ => hext.numbers

/-- **The rows of all sets are computed**, within the bound on the number of sets. -/
theorem Tabled.rows (hwf : nfa.WellFormed) (bound : Nat) {table : Array (List (Option Nat))}
    (h : Tabled nfa representatives subsets table) (hvalid : subsets.Valid nfa.size)
    (hbound : 2 ^ nfa.size ≤ table.size + bound) :
    ∃ subsets' table', rows nfa representatives bound table.size subsets table =
        (subsets', table') ∧ subsets'.Valid nfa.size ∧ subsets.Extends subsets' ∧
      Tabled nfa representatives subsets' table' ∧ table'.size = subsets'.found.size := by
  induction bound generalizing subsets table with
  | zero =>
    have hle := hvalid.size_le
    have hge := h.size_le
    exact ⟨subsets, table, rfl, hvalid, .refl _, h, by omega⟩
  | succ bound ih =>
    rw [Dfa.rows]
    split
    · next hnone =>
      have hle := Array.getElem?_eq_none_iff.1 hnone
      exact ⟨subsets, table, rfl, hvalid, .refl _, h, le_antisymm h.size_le hle⟩
    · next s hs =>
      have hsets : ∀ t ∈ representatives.map (nfa.stepFrom s.toList), t.Within nfa.size := by
        intro t ht
        obtain ⟨b, -, rfl⟩ := List.mem_map.1 ht
        exact Nfa.within_stepFrom hwf s.toList b
      obtain ⟨hvalid', hext, hall⟩ := hvalid.numberAll hsets
      obtain ⟨subsets', table', hrows, hvalid'', hext', htabled', hsize⟩ :=
        ih (h.push hext hs hall) hvalid' (by rw [Array.size_push]; omega)
      rw [Array.size_push] at hrows
      exact ⟨subsets', table', hrows, hvalid'', hext.trans hext', htabled', hsize⟩

/-- When all sets have a row, the loop ends, whatever bound is left. -/
theorem rows_of_getElem?_eq_none (nfa : Nfa) (representatives : List UInt8) (bound : Nat)
    {current : Nat} {table : Array (List (Option Nat))} (h : subsets.found[current]? = none) :
    rows nfa representatives bound current subsets table = (subsets, table) := by
  cases bound with
  | zero => rfl
  | succ bound =>
    rw [Dfa.rows]
    split
    · rfl
    · next s hs =>
      rw [h] at hs
      cases hs

/-- The rounds within a bound can be followed by more of them. -/
theorem rows_add (nfa : Nfa) (representatives : List UInt8) (bound more : Nat) (subsets : Subsets)
    (table : Array (List (Option Nat))) :
    rows nfa representatives (bound + more) table.size subsets table =
      rows nfa representatives more
        (rows nfa representatives bound table.size subsets table).2.size
        (rows nfa representatives bound table.size subsets table).1
        (rows nfa representatives bound table.size subsets table).2 := by
  induction bound generalizing subsets table with
  | zero => rw [Nat.zero_add, Dfa.rows]
  | succ bound ih =>
    rw [Nat.add_right_comm, Dfa.rows, Dfa.rows]
    cases hs : subsets.found[table.size]? with
    | none => exact (rows_of_getElem?_eq_none nfa representatives more hs).symm
    | some s =>
      simpa using ih (numberAll subsets (representatives.map (nfa.stepFrom s.toList))).1
        (table.push (numberAll subsets (representatives.map (nfa.stepFrom s.toList))).2)

/-- Each row has one entry for each group. -/
theorem Tabled.length_row {table : Array (List (Option Nat))}
    (h : Tabled nfa representatives subsets table) {r : List (Option Nat)} (hr : r ∈ table.toList) :
    r.length = representatives.length := by
  obtain ⟨i, hi⟩ := List.mem_iff_getElem?.1 hr
  rw [Array.getElem?_toList] at hi
  have hlt : i < table.size := (Array.getElem?_eq_some_iff.1 hi).choose
  obtain ⟨s, hs⟩ : ∃ s, subsets.found[i]? = some s :=
    ⟨_, Array.getElem?_eq_getElem (lt_of_lt_of_le hlt h.size_le)⟩
  simpa using (h.row i s r hs hi).length_eq.symm

/-- The cells of rows of one length, one row behind the other. -/
theorem getElem?_flatten_of_length {α : Type} {rows : List (List α)} {c : Nat}
    (hrows : ∀ r ∈ rows, r.length = c) {i j : Nat} {r : List α} (hr : rows[i]? = some r)
    (hj : j < c) : rows.flatten[i * c + j]? = r[j]? := by
  induction rows generalizing i with
  | nil => cases hr
  | cons row rows ih =>
    rw [List.forall_mem_cons] at hrows
    rw [List.flatten_cons]
    cases i with
    | zero =>
      obtain rfl : row = r := Option.some.inj hr
      rw [Nat.zero_mul, Nat.zero_add, List.getElem?_append_left (by omega)]
    | succ i =>
      have hle : row.length ≤ (i + 1) * c + j := by
        rw [hrows.1, Nat.succ_mul]
        omega
      have hsub : (i + 1) * c + j - row.length = i * c + j := by
        rw [hrows.1, Nat.succ_mul]
        omega
      rw [List.getElem?_append_right hle, hsub]
      exact ih hrows.2 hr

/-- The cell of a set and of the group of a byte has the number of the set behind the byte. -/
theorem Tabled.exists_cell {table : Array (List (Option Nat))}
    (h : Tabled nfa (ByteGroups.ofSets nfa.moveSets).representatives subsets table)
    {i : Nat} {s : StateSet} (hs : subsets.found[i]? = some s) (hi : i < table.size) (b : UInt8) :
    ∃ o, table.toList.flatten[i * (ByteGroups.ofSets nfa.moveSets).count +
        (ByteGroups.ofSets nfa.moveSets).group b]? = some o ∧
      subsets.Numbers (nfa.step s b) o := by
  have hgroup : (ByteGroups.ofSets nfa.moveSets).group b <
    (ByteGroups.ofSets nfa.moveSets).count := ByteGroups.group_lt_count b
  obtain ⟨r, hr⟩ : ∃ r, table[i]? = some r := ⟨_, Array.getElem?_eq_getElem hi⟩
  -- the row was computed for a byte that stands for all bytes of the group
  obtain ⟨a, ha, hab⟩ := ByteGroups.exists_representative hgroup
  obtain ⟨o, ho, hnumber⟩ := exists_getElem?_of_forall₂ (h.row i s r hs hr)
    (a := nfa.stepFrom s.toList a) (by rw [List.getElem?_map, ha, Option.map_some])
  rw [Nfa.stepFrom_congr hab] at hnumber
  refine ⟨o, ?_, hnumber⟩
  have hrow : table.toList[i]? = some r := by simpa using hr
  rw [getElem?_flatten_of_length (fun r hr => ?_) hrow hgroup, ho]
  rw [h.length_row hr, ByteGroups.length_representatives]

end Rows

/-! ### Accepted rules

Of the rules that the states of a set accept, the least one counts.  Rules that are accepted at the
ends of lines only compete with the others there. -/

section Accepted

/-- The value is the least element of the set, or the set is empty and there is no value. -/
def LeastOf (p : Set Nat) : Option Nat → Prop
  | none => p = ∅
  | some n => IsLeast p n

/-- The rule that is found is the least one of all marks. -/
theorem leastOf_leastRule (marks : List Accept) :
    LeastOf {rule | ∃ a ∈ marks, a.rule = rule} (leastRule marks) := by
  induction marks with
  | nil => simp [leastRule, LeastOf]
  | cons a marks ih =>
    have hset : {rule | ∃ b ∈ a :: marks, b.rule = rule} =
        insert a.rule {rule | ∃ b ∈ marks, b.rule = rule} := by
      ext rule
      simp [eq_comm]
    unfold leastRule
    rw [hset]
    split
    · next hnone =>
      rw [hnone] at ih
      rw [show {rule | ∃ b ∈ marks, b.rule = rule} = ∅ from ih, insert_empty_eq]
      exact isLeast_singleton
    · next rule hsome =>
      rw [hsome] at ih
      exact IsLeast.insert a.rule ih

/-- The rules that a set of states accepts, where `lineEnd` tells whether a line ends there. -/
def ruleSet (nfa : Nfa) (s : StateSet) (lineEnd : Bool) : Set Nat :=
  {rule | ∃ i a, s.mem i = true ∧ (nfa.state i).accept = some a ∧ a.rule = rule ∧
    (a.atLineEnd = true → lineEnd = true)}

/-- The rule that is chosen from the two that a set of states has: at the end of a line the second
one takes precedence. -/
def chosen (accepts : Option Nat × Option Nat) (lineEnd : Bool) : Option Nat :=
  match accepts.2 with
  | some rule => if lineEnd then some rule else accepts.1
  | none => accepts.1

/-- The least rules of both kinds, without the second one when the first one comes before it. -/
def paired (a b : Option Nat) : Option Nat × Option Nat :=
  match a, b with
  | some rule, some endRule => (a, if rule < endRule then none else b)
  | _, _ => (a, b)

/-- The two entries of a set in the tables. -/
theorem accepts_eq (nfa : Nfa) (s : StateSet) :
    accepts nfa s =
      let marks := s.toList.filterMap fun i => (nfa.state i).accept
      paired (leastRule (marks.filter fun a => !a.atLineEnd))
        (leastRule (marks.filter Accept.atLineEnd)) := rfl

/-- Chosen from the pair, a rule is the least one of those that count at the place. -/
theorem leastOf_paired {p q : Set Nat} {a b : Option Nat} (ha : LeastOf p a) (hb : LeastOf q b)
    (lineEnd : Bool) :
    LeastOf (if lineEnd then p ∪ q else p) (chosen (paired a b) lineEnd) := by
  cases lineEnd with
  | false =>
    cases a with
    | none => cases b <;> exact ha
    | some rule =>
      cases b with
      | none => exact ha
      | some endRule =>
        show LeastOf p (chosen (some rule, if rule < endRule then none else some endRule) false)
        split <;> exact ha
  | true =>
    rw [if_pos rfl]
    cases a with
    | none =>
      obtain rfl : p = ∅ := ha
      rw [Set.empty_union]
      cases b <;> exact hb
    | some rule =>
      cases b with
      | none =>
        obtain rfl : q = ∅ := hb
        rw [Set.union_empty]
        exact ha
      | some endRule =>
        -- at the end of a line the lesser one wins, so the pair can drop a rule for line ends that
        -- is not the lesser one
        have hmin : IsLeast (p ∪ q) (min rule endRule) := ha.union hb
        show LeastOf _ (chosen (some rule, if rule < endRule then none else some endRule) true)
        split
        · next hlt =>
          rw [min_eq_left hlt.le] at hmin
          exact hmin
        · next hle =>
          rw [min_eq_right (not_lt.1 hle)] at hmin
          exact hmin

/-- The rules of a set are those of its marks; the ones at the end of a line only count there. -/
theorem ruleSet_eq (nfa : Nfa) (s : StateSet) (lineEnd : Bool) :
    let marks := s.toList.filterMap fun i => (nfa.state i).accept
    ruleSet nfa s lineEnd =
      if lineEnd then {rule | ∃ a ∈ marks.filter fun a => !a.atLineEnd, a.rule = rule} ∪
        {rule | ∃ a ∈ marks.filter Accept.atLineEnd, a.rule = rule}
      else {rule | ∃ a ∈ marks.filter fun a => !a.atLineEnd, a.rule = rule} := by
  intro marks
  have hmem : ∀ a, a ∈ marks ↔ ∃ i, s.mem i = true ∧ (nfa.state i).accept = some a := by
    simp [marks]
  have hrules : ruleSet nfa s lineEnd =
      {rule | ∃ a ∈ marks, a.rule = rule ∧ (a.atLineEnd = true → lineEnd = true)} := by
    ext rule
    simp only [ruleSet, hmem, Set.mem_ofPred_eq]
    constructor
    · rintro ⟨i, a, hi, ha, hrest⟩
      exact ⟨a, ⟨i, hi, ha⟩, hrest⟩
    · rintro ⟨a, ⟨i, hi, ha⟩, hrest⟩
      exact ⟨i, a, hi, ha, hrest⟩
  rw [hrules]
  ext rule
  cases lineEnd with
  | false => simp [and_assoc, and_comm, and_left_comm]
  | true =>
    simp only [if_true, Set.mem_ofPred_eq, Set.mem_union, List.mem_filter, ← exists_or]
    apply exists_congr
    intro a
    cases a.atLineEnd <;> simp

/-- **The least rule is chosen.** -/
theorem leastOf_chosen (nfa : Nfa) (s : StateSet) (lineEnd : Bool) :
    LeastOf (ruleSet nfa s lineEnd) (chosen (accepts nfa s) lineEnd) := by
  rw [ruleSet_eq, accepts_eq]
  exact leastOf_paired (leastOf_leastRule _) (leastOf_leastRule _) lineEnd

end Accepted

/-! ### The construction

There are no more sets of states than numbers with as many bits, so the rounds end before their
bound is used up.  With any larger bound the construction comes to the same automaton. -/

/-- The tables of an automaton whose sets, entries and rows have been computed. -/
def ofRows (nfa : Nfa) (groups : ByteGroups) (subsets : Subsets) (initial : List (Option Nat))
    (table : Array (List (Option Nat))) : Dfa :=
  let size := subsets.found.size
  let accepted := subsets.found.map (accepts nfa)
  { groups := groups.count
    size := size
    initial := (initial.map fun i => i.getD size).toArray
    table := (table.toList.flatten.map fun i => i.getD size).toArray
    accept := accepted.map Prod.fst
    lineEndAccept := accepted.map Prod.snd }

/-- The construction of `Dfa.build` with any bound on its rounds. -/
def buildWithin (bound : Nat) (nfa : Nfa) (groups : ByteGroups) (starts : List Nat) : Dfa :=
  let numbered := numberAll Subsets.empty (starts.map fun start => nfa.closure [start])
  let explored := rows nfa groups.representatives bound 0 numbered.1 #[]
  ofRows nfa groups explored.1 numbered.2 explored.2

/-- The bound that the construction uses. -/
theorem build_eq_buildWithin (nfa : Nfa) (groups : ByteGroups) (starts : List Nat) :
    build nfa groups starts = buildWithin (1 <<< nfa.size) nfa groups starts := rfl

/-- The sets of the start states and those behind them are numbered, and each one has a row. -/
structure Explored (nfa : Nfa) (starts : List Nat) (subsets : Subsets)
    (initial : List (Option Nat)) (table : Array (List (Option Nat))) : Prop where
  valid : subsets.Valid nfa.size
  initial : List.Forall₂ subsets.Numbers (starts.map fun start => nfa.closure [start]) initial
  tabled : Tabled nfa (ByteGroups.ofSets nfa.moveSets).representatives subsets table
  size_eq : table.size = subsets.found.size

/-- **The construction ends** because all sets have their rows, not because of its bound. -/
theorem exists_explored {nfa : Nfa} (hwf : nfa.WellFormed) {starts : List Nat}
    (hstarts : ∀ i ∈ starts, i < nfa.size) :
    ∃ subsets initial table, Explored nfa starts subsets initial table ∧
      ∀ bound, 2 ^ nfa.size ≤ bound →
        buildWithin bound nfa (ByteGroups.ofSets nfa.moveSets) starts =
          ofRows nfa (ByteGroups.ofSets nfa.moveSets) subsets initial table := by
  have hsets : ∀ s ∈ starts.map fun start => nfa.closure [start], s.Within nfa.size := by
    intro s hs
    obtain ⟨i, hi, rfl⟩ := List.mem_map.1 hs
    exact Nfa.within_closure hwf (by simpa using hstarts i hi)
  obtain ⟨hvalid, -, hinitial⟩ := (Subsets.valid_empty (n := nfa.size)).numberAll hsets
  unfold buildWithin
  generalize numberAll Subsets.empty _ = numbered at hvalid hinitial ⊢
  obtain ⟨subsets, initial⟩ := numbered
  have hempty : Tabled nfa (ByteGroups.ofSets nfa.moveSets).representatives subsets #[] :=
    ⟨Nat.zero_le _, fun i s r _ hr => by simp at hr⟩
  obtain ⟨subsets', table, hrows, hvalid', hext, htabled, hsize⟩ :=
    hempty.rows hwf (2 ^ nfa.size) hvalid (Nat.le_add_left _ _)
  refine ⟨subsets', initial, table, ⟨hvalid', ?_, htabled, hsize⟩, fun bound hbound => ?_⟩
  · exact hinitial.imp fun _ _ => hext.numbers
  · obtain ⟨more, rfl⟩ := Nat.exists_eq_add_of_le hbound
    have hend : subsets'.found[table.size]? = none :=
      Array.getElem?_eq_none_iff.2 (Nat.le_of_eq hsize.symm)
    have hrows' := rows_add nfa (ByteGroups.ofSets nfa.moveSets).representatives (2 ^ nfa.size)
      more subsets #[]
    rw [hrows, rows_of_getElem?_eq_none _ _ more hend] at hrows'
    exact congrArg (fun p => ofRows nfa _ p.1 initial p.2) hrows'

/-- A larger bound does not change the automaton. -/
theorem buildWithin_eq_build {nfa : Nfa} (hwf : nfa.WellFormed) {starts : List Nat}
    (hstarts : ∀ i ∈ starts, i < nfa.size) {bound : Nat} (hbound : 2 ^ nfa.size ≤ bound) :
    buildWithin bound nfa (ByteGroups.ofSets nfa.moveSets) starts =
      build nfa (ByteGroups.ofSets nfa.moveSets) starts := by
  obtain ⟨subsets, initial, table, -, hbuild⟩ := exists_explored hwf hstarts
  rw [build_eq_buildWithin, hbuild bound hbound, hbuild _ (Nat.le_of_eq (Nat.one_shiftLeft _).symm)]

/-! ### The automaton

What is left of the construction is its result: for each state the set that it stands for, the sets
behind the bytes, and the rules. -/

/-- The states of the automaton stand for the sets of a list. -/
structure Shows (nfa : Nfa) (groups : ByteGroups) (dfa : Dfa) (found : Array StateSet) : Prop where
  alive : ∀ (i : Nat) (s : StateSet), found[i]? = some s → dfa.isDead i = false
  next : ∀ (i : Nat) (s : StateSet) (b : UInt8), found[i]? = some s →
    dfa.isDead (dfa.next i (groups.group b)) = true ∧ (nfa.step s b).isEmpty = true ∨
      found[dfa.next i (groups.group b)]? = some (nfa.step s b)
  accept : ∀ (i : Nat) (s : StateSet), found[i]? = some s →
    dfa.accept.getD i none = (accepts nfa s).1
  lineEndAccept : ∀ (i : Nat) (s : StateSet), found[i]? = some s →
    dfa.lineEndAccept.getD i none = (accepts nfa s).2

/-- The states of the finished automaton stand for the sets that have been numbered. -/
theorem Explored.shows {nfa : Nfa} {starts : List Nat} {subsets : Subsets}
    {initial : List (Option Nat)} {table : Array (List (Option Nat))}
    (h : Explored nfa starts subsets initial table) :
    Shows nfa (ByteGroups.ofSets nfa.moveSets)
      (ofRows nfa (ByteGroups.ofSets nfa.moveSets) subsets initial table) subsets.found := by
  refine ⟨?_, ?_, ?_, ?_⟩
  · intro i s hs
    have hlt := (Array.getElem?_eq_some_iff.1 hs).choose
    show decide (subsets.found.size ≤ i) = false
    simpa using hlt
  · intro i s b hs
    have hi : i < table.size := h.size_eq ▸ (Array.getElem?_eq_some_iff.1 hs).choose
    obtain ⟨o, hcell, hnumber⟩ := h.tabled.exists_cell hs hi b
    have hnext : (table.toList.flatten.map fun i => i.getD subsets.found.size).toArray.getD
        (i * (ByteGroups.ofSets nfa.moveSets).count + (ByteGroups.ofSets nfa.moveSets).group b)
        subsets.found.size = o.getD subsets.found.size := by
      rw [Array.getD_eq_getD_getElem?, List.getElem?_toArray, List.getElem?_map, hcell]
      rfl
    unfold Dfa.next isDead ofRows
    simp only [hnext]
    cases o with
    | none => exact .inl ⟨decide_eq_true le_rfl, hnumber⟩
    | some j => exact .inr hnumber
  · intro i s hs
    simp [ofRows, hs]
  · intro i s hs
    simp [ofRows, hs]

/-- The entry for a start state stands for the states that silent edges reach from there. -/
theorem Explored.exists_entry {nfa : Nfa} (hwf : nfa.WellFormed) {starts : List Nat}
    (hstarts : ∀ i ∈ starts, i < nfa.size) {subsets : Subsets} {initial : List (Option Nat)}
    {table : Array (List (Option Nat))} (h : Explored nfa starts subsets initial table)
    {k start : Nat} (hk : starts[k]? = some start) :
    ∃ entry, (ofRows nfa (ByteGroups.ofSets nfa.moveSets) subsets initial table).initial[k]? =
        some entry ∧ subsets.found[entry]? = some (nfa.closure [start]) := by
  -- the closure of a start state is not empty, so it has a number
  obtain ⟨o, ho, hnumber⟩ := exists_getElem?_of_forall₂ h.initial
    (a := nfa.closure [start]) (by rw [List.getElem?_map, hk, Option.map_some])
  have hmem : (nfa.closure [start]).mem start = true :=
    (Nfa.mem_closure_iff hwf (by simpa using hstarts start (List.mem_of_getElem? hk))).2
      ⟨start, by simp, .refl _⟩
  cases o with
  | none => simp [StateSet.isEmpty_iff.1 hnumber start] at hmem
  | some i => exact ⟨i, by simp [ofRows, ho], hnumber⟩

/-- **Determinization.**  The states of the automaton stand for sets, and the entry for a start
state stands for the states that silent edges reach from there. -/
theorem exists_shows_build {nfa : Nfa} (hwf : nfa.WellFormed) {starts : List Nat}
    (hstarts : ∀ i ∈ starts, i < nfa.size) :
    ∃ found, Shows nfa (ByteGroups.ofSets nfa.moveSets)
        (build nfa (ByteGroups.ofSets nfa.moveSets) starts) found ∧
      ∀ (k start d : Nat), starts[k]? = some start →
        found[(build nfa (ByteGroups.ofSets nfa.moveSets) starts).initial.getD k d]? =
          some (nfa.closure [start]) := by
  obtain ⟨subsets, initial, table, hexplored, hbuild⟩ := exists_explored hwf hstarts
  rw [build_eq_buildWithin, hbuild _ (Nat.le_of_eq (Nat.one_shiftLeft _).symm)]
  refine ⟨subsets.found, hexplored.shows, ?_⟩
  intro k start d hk
  obtain ⟨entry, hentry, hfound⟩ := hexplored.exists_entry hwf hstarts hk
  rwa [Array.getD_eq_getD_getElem?, hentry, Option.getD_some]

end Dfa

end FrontEnd
