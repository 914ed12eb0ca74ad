import FrontEnd.Proofs.Dfa

/-!
# Runs of the deterministic automaton

A run over a byte string ends in the state of the set that the nondeterministic automaton reaches
over the string, or in the dead state when a front part of the string leads nowhere.

## Main Definitions

* `Dfa.run` — the state behind a byte string
* `Dfa.marked` — the rules that a set of states accepts, at the ends of lines only or anywhere
* `Dfa.Accepts` — the tables hold the least rules of a set for a state
* `Dfa.Determinizes` — what is known about the tables and the runs of the automaton

## Main Statements

* `Dfa.Shows.run_cases` — a run dies, or its state stands for the set that is reached
* `Dfa.determinizes_build` — determinization refines the automaton
-/

namespace FrontEnd

namespace Dfa

/-- The state behind a byte string.  The dead state is not left. -/
def run (dfa : Dfa) (groups : ByteGroups) (state : Nat) (bytes : List UInt8) : Nat :=
  bytes.foldl
    (fun state b => if dfa.isDead state then state else dfa.next state (groups.group b)) state

/-- The rules that the states of a set accept, at the ends of lines only or anywhere. -/
def marked (nfa : Nfa) (s : StateSet) (atLineEnd : Bool) : Set Nat :=
  {rule | ∃ i, s.mem i = true ∧ (nfa.state i).accept = some ⟨rule, atLineEnd⟩}

/-- The tables hold for a state the least rule that a set of states accepts anywhere, and the least
one that it accepts at the ends of lines, unless a smaller one is accepted anywhere. -/
def Accepts (nfa : Nfa) (dfa : Dfa) (state : Nat) (s : StateSet) : Prop :=
  ∃ accept lineEndAccept, dfa.accept[state]? = some accept ∧
    dfa.lineEndAccept[state]? = some lineEndAccept ∧
    (∀ rule, accept = some rule ↔ IsLeast (marked nfa s false) rule) ∧
    ∀ rule, lineEndAccept = some rule ↔
      IsLeast (marked nfa s true) rule ∧ ¬ ∃ smaller ∈ marked nfa s false, smaller < rule

/-! ### Least rules

The tables keep one rule for all places and another one for the ends of lines, which is entered only
when it is smaller.  Both are least elements of sets of rules. -/

/-- A rule is found exactly when it is the least one. -/
theorem LeastOf.eq_some_iff {p : Set Nat} {o : Option Nat} (h : LeastOf p o) {rule : Nat} :
    o = some rule ↔ IsLeast p rule := by
  cases o with
  | none =>
    obtain rfl : p = ∅ := h
    simp [IsLeast]
  | some least =>
    rw [Option.some.injEq]
    exact ⟨fun heq => heq ▸ h, fun hrule => IsLeast.unique h hrule⟩

/-- The least rule of the marks of a set that count at the ends of lines only, or anywhere. -/
theorem leastOf_marked (nfa : Nfa) (s : StateSet) (atLineEnd : Bool) :
    LeastOf (marked nfa s atLineEnd) (leastRule
      ((s.toList.filterMap fun i => (nfa.state i).accept).filter fun a =>
        a.atLineEnd == atLineEnd)) := by
  convert leastOf_leastRule _
  ext rule
  simp only [marked, List.mem_filter, List.mem_filterMap, StateSet.mem_toList, beq_iff_eq,
    Set.mem_ofPred_eq]
  constructor
  · rintro ⟨i, hi, ha⟩
    exact ⟨⟨rule, atLineEnd⟩, ⟨⟨i, hi, ha⟩, rfl⟩, rfl⟩
  · rintro ⟨a, ⟨⟨i, hi, ha⟩, rfl⟩, rfl⟩
    exact ⟨i, hi, ha⟩

/-- The second entry is there when no smaller rule is accepted anywhere. -/
theorem paired_snd_eq_some_iff {a b : Option Nat} {rule : Nat} :
    (paired a b).2 = some rule ↔ b = some rule ∧ ∀ smaller, a = some smaller → rule ≤ smaller := by
  cases a with
  | none => simp [paired]
  | some first =>
    cases b with
    | none => simp [paired]
    | some last =>
      simp only [paired, Option.some.injEq, forall_eq']
      split
      · next hlt =>
        refine iff_of_false (fun h => nomatch h) ?_
        rintro ⟨rfl, hle⟩
        omega
      · next hle =>
        rw [Option.some.injEq]
        exact ⟨fun h => ⟨h, by omega⟩, And.left⟩

/-- The two rules of a set. -/
theorem accepts_iff (nfa : Nfa) (s : StateSet) :
    (∀ rule, (accepts nfa s).1 = some rule ↔ IsLeast (marked nfa s false) rule) ∧
      ∀ rule, (accepts nfa s).2 = some rule ↔
        IsLeast (marked nfa s true) rule ∧ ¬ ∃ smaller ∈ marked nfa s false, smaller < rule := by
  have hanywhere := leastOf_marked nfa s false
  have hlineEnd := leastOf_marked nfa s true
  simp only [beq_false, beq_true] at hanywhere hlineEnd
  rw [accepts_eq]
  dsimp only
  generalize leastRule _ = a at hanywhere
  generalize leastRule _ = b at hlineEnd
  constructor
  · intro rule
    rw [← hanywhere.eq_some_iff]
    cases a <;> cases b <;> rfl
  · intro rule
    rw [paired_snd_eq_some_iff, hlineEnd.eq_some_iff]
    refine and_congr_right fun _ => ?_
    -- a smaller rule is there exactly when the least one is smaller
    push Not
    cases a with
    | none =>
      have hempty : marked nfa s false = ∅ := hanywhere
      simp [hempty]
    | some least =>
      have hleast : IsLeast (marked nfa s false) least := hanywhere
      constructor
      · exact fun h smaller hsmaller => (h least rfl).trans (hleast.2 hsmaller)
      · rintro h _ ⟨⟩
        exact h least hleast.1

/-! ### Runs

A run follows the sets of states, byte by byte.  Behind the empty set only empty sets follow, and
the dead state stands for them. -/

section Runs

variable {nfa : Nfa} {groups : ByteGroups} {dfa : Dfa} {found : Array StateSet}

/-- The dead state is not left. -/
theorem run_of_isDead {state : Nat} (h : dfa.isDead state = true) (bytes : List UInt8) :
    dfa.run groups state bytes = state := by
  induction bytes with
  | nil => rfl
  | cons b bytes ih =>
    rw [run, List.foldl_cons, if_pos h]
    exact ih

/-- **A run dies** when a front part of its bytes leads nowhere, and otherwise its state stands for
the set that is reached. -/
theorem Shows.run_cases (h : Shows nfa groups dfa found) {state : Nat} {s : StateSet}
    (hs : found[state]? = some s) (bytes : List UInt8) :
    (dfa.isDead (dfa.run groups state bytes) = true ∧
        ∃ front, front <+: bytes ∧ (front.foldl nfa.step s).isEmpty = true) ∨
      found[dfa.run groups state bytes]? = some (bytes.foldl nfa.step s) := by
  induction bytes generalizing state s with
  | nil => exact .inr hs
  | cons b bytes ih =>
    have halive := h.alive state s hs
    rw [run, List.foldl_cons, if_neg (by simp [halive]), List.foldl_cons]
    rcases h.next state s b hs with ⟨hdead, hempty⟩ | hnext
    · refine .inl ⟨?_, [b], by simp, hempty⟩
      rwa [← run, run_of_isDead hdead]
    · rcases ih hnext with ⟨hdead, front, hfront, hempty⟩ | hfound
      · exact .inl ⟨hdead, b :: front, by simpa using hfront, hempty⟩
      · exact .inr hfound

/-- Nothing is reached from the empty set. -/
theorem isEmpty_foldl_step (hwf : nfa.WellFormed) {s : StateSet} (hs : s.isEmpty = true)
    (bytes : List UInt8) : (bytes.foldl nfa.step s).isEmpty = true := by
  rw [StateSet.isEmpty_iff] at hs ⊢
  intro i
  by_contra hi
  rw [Bool.not_eq_false, Nfa.mem_foldl_step_iff hwf (by simp [hs])] at hi
  obtain ⟨j, hj, -⟩ := hi
  simp [hs] at hj

end Runs

/-! ### The tables

All cells, row by row, have been filled in, and each of them is a state or dead. -/

/-- What is known about the tables and the runs of an automaton that has been made deterministic;
`found` are the sets that its states stand for. -/
structure Determinizes (nfa : Nfa) (groups : ByteGroups) (starts : List Nat) (dfa : Dfa)
    (found : Array StateSet) : Prop where
  /-- There is one set for each state, and no two states stand for the same one. -/
  size_found : found.size = dfa.size
  nodup_found : found.toList.Nodup
  size_le : dfa.size ≤ 2 ^ nfa.size
  /-- The table has a row for each state and a column for each group. -/
  groups_eq : dfa.groups = groups.count
  size_table : dfa.table.size = dfa.size * dfa.groups
  table_le : ∀ target ∈ dfa.table, target ≤ dfa.size
  size_initial : dfa.initial.size = starts.length
  /-- A byte leads from the state of a set to the state of the set behind the byte, or to the dead
  state when that one is empty. -/
  next : ∀ (state : Nat) (s : StateSet) (b : UInt8), found[state]? = some s →
    dfa.isDead (dfa.next state (groups.group b)) = true ∧ (nfa.step s b).isEmpty = true ∨
      found[dfa.next state (groups.group b)]? = some (nfa.step s b)
  /-- A run from the entry for a start state dies exactly when a front part of its bytes leads
  nowhere.  Otherwise its state stands for the set that is reached, and accepts its rules. -/
  simulates : ∀ (i start : Nat), starts[i]? = some start → ∃ entry, dfa.initial[i]? = some entry ∧
    ∀ bytes, (dfa.isDead (dfa.run groups entry bytes) = true ↔
        ∃ front, front <+: bytes ∧ (nfa.run start front).isEmpty = true) ∧
      (dfa.isDead (dfa.run groups entry bytes) = false →
        found[dfa.run groups entry bytes]? = some (nfa.run start bytes) ∧
          Accepts nfa dfa (dfa.run groups entry bytes) (nfa.run start bytes))

section Tables

variable {nfa : Nfa} {starts : List Nat} {subsets : Subsets} {initial : List (Option Nat)}
  {table : Array (List (Option Nat))}

/-- Rows of one length make a table with as many cells. -/
theorem length_flatten_of_length {α : Type} {rows : List (List α)} {c : Nat}
    (hrows : ∀ r ∈ rows, r.length = c) : rows.flatten.length = rows.length * c := by
  induction rows with
  | nil => simp
  | cons r rows ih =>
    rw [List.forall_mem_cons] at hrows
    rw [List.flatten_cons, List.length_append, hrows.1, ih hrows.2, List.length_cons, Nat.succ_mul,
      Nat.add_comm]

theorem Explored.length_flatten (h : Explored nfa starts subsets initial table) :
    table.toList.flatten.length =
      subsets.found.size * (ByteGroups.ofSets nfa.moveSets).count := by
  rw [length_flatten_of_length fun r hr => h.tabled.length_row hr, Array.length_toList, h.size_eq,
    ByteGroups.length_representatives]

/-- Every number in a row is that of a set. -/
theorem Explored.lt_size_of_mem (h : Explored nfa starts subsets initial table) {i : Nat}
    (hi : some i ∈ table.toList.flatten) : i < subsets.found.size := by
  obtain ⟨r, hr, hi⟩ := List.mem_flatten.1 hi
  obtain ⟨k, hk⟩ := List.mem_iff_getElem?.1 hr
  rw [Array.getElem?_toList] at hk
  have hlt : k < subsets.found.size := h.size_eq ▸ (Array.getElem?_eq_some_iff.1 hk).choose
  have hrow := h.tabled.row k _ r (Array.getElem?_eq_getElem hlt) hk
  obtain ⟨j, hj⟩ := List.mem_iff_getElem?.1 hi
  obtain ⟨s, -, hnumber⟩ := exists_getElem?_of_forall₂ hrow.flip hj
  exact (Array.getElem?_eq_some_iff.1 hnumber).choose

/-- The entries of a state are those of the set that it stands for. -/
theorem accepts_ofRows (groups : ByteGroups) {i : Nat} {s : StateSet}
    (hs : subsets.found[i]? = some s) : Accepts nfa (ofRows nfa groups subsets initial table) i s :=
  ⟨_, _, by simp [ofRows, hs], by simp [ofRows, hs], accepts_iff nfa s⟩

/-- The finished tables are those of a deterministic automaton. -/
theorem Explored.determinizes (hwf : nfa.WellFormed) (hstarts : ∀ i ∈ starts, i < nfa.size)
    (h : Explored nfa starts subsets initial table) :
    Determinizes nfa (ByteGroups.ofSets nfa.moveSets) starts
      (ofRows nfa (ByteGroups.ofSets nfa.moveSets) subsets initial table) subsets.found := by
  have hshows := h.shows
  refine ⟨rfl, h.valid.nodup, h.valid.size_le, rfl, ?_, ?_, ?_, hshows.next, ?_⟩
  · show (table.toList.flatten.map _).toArray.size = _
    rw [List.size_toArray, List.length_map]
    exact h.length_flatten
  · intro target htarget
    have hmem : target ∈ table.toList.flatten.map fun i => i.getD subsets.found.size := by
      simpa [ofRows] using htarget
    obtain ⟨o, ho, rfl⟩ := List.mem_map.1 hmem
    cases o with
    | none => exact le_rfl
    | some i => exact (h.lt_size_of_mem ho).le
  · simpa [ofRows] using h.initial.length_eq.symm
  · intro i start hi
    obtain ⟨entry, hentry, hfound⟩ := h.exists_entry hwf hstarts hi
    refine ⟨entry, hentry, fun bytes => ?_⟩
    rcases hshows.run_cases hfound bytes with ⟨hdead, hfront⟩ | hrun
    · exact ⟨iff_of_true hdead hfront, fun halive => absurd hdead (by simp [halive])⟩
    · have halive := hshows.alive _ _ hrun
      refine ⟨iff_of_false (by simp [halive]) ?_, fun _ => ⟨hrun, accepts_ofRows _ hrun⟩⟩
      -- the set that is reached is not empty, and so are those on the way to it
      rintro ⟨front, ⟨rest, rfl⟩, hempty⟩
      have hreached := isEmpty_foldl_step hwf hempty rest
      rw [Nfa.run, ← List.foldl_append, h.valid.inhabited _ _ hrun] at hreached
      cases hreached

end Tables

/-- **Determinization refines the automaton.**  The construction ends by itself: no bound on its
rounds above the number of all sets of states changes the result.  The states of the result stand
for different sets, and its runs follow the sets that the automaton reaches, whatever its edges,
its marks and the start states are. -/
theorem determinizes_build {nfa : Nfa} (hwf : nfa.WellFormed) {starts : List Nat}
    (hstarts : ∀ i ∈ starts, i < nfa.size) :
    (∀ bound, 2 ^ nfa.size ≤ bound →
      buildWithin bound nfa (ByteGroups.ofSets nfa.moveSets) starts =
        build nfa (ByteGroups.ofSets nfa.moveSets) starts) ∧
    ∃ found, Determinizes nfa (ByteGroups.ofSets nfa.moveSets) starts
      (build nfa (ByteGroups.ofSets nfa.moveSets) starts) found := by
  refine ⟨fun bound hbound => buildWithin_eq_build hwf hstarts hbound, ?_⟩
  obtain ⟨subsets, initial, table, hexplored, hbuild⟩ := exists_explored hwf hstarts
  rw [build_eq_buildWithin, hbuild _ (Nat.le_of_eq (Nat.one_shiftLeft _).symm)]
  exact ⟨subsets.found, hexplored.determinizes hwf hstarts⟩

/-- A loop of silent edges, and two rules of which the first one counts at the ends of lines
only. -/
def loopAndMarks : Nfa :=
  ⟨#[⟨[1, 0], [(ByteSet.singleton 0x61, 2)], none⟩,
    ⟨[0], [(ByteSet.range 0x61 0x62, 1)], some ⟨4, false⟩⟩, ⟨[], [], some ⟨3, true⟩⟩]⟩

/-- Behind `a` the rule for the ends of lines is the smaller one, behind `ab` it is gone, and `c`
leads to the dead state. -/
theorem determinizes_build_loopAndMarks :
    ∃ found, Determinizes loopAndMarks (ByteGroups.ofSets loopAndMarks.moveSets) [2, 0]
        (build loopAndMarks (ByteGroups.ofSets loopAndMarks.moveSets) [2, 0]) found ∧
      (let dfa := build loopAndMarks (ByteGroups.ofSets loopAndMarks.moveSets) [2, 0]
      ([[0x61], [0x61, 0x62], [0x61, 0x63, 0x61]].map fun bytes =>
        let state := dfa.run (ByteGroups.ofSets loopAndMarks.moveSets) 1 bytes
        (dfa.isDead state, dfa.accept[state]?, dfa.lineEndAccept[state]?)) =
      [(false, some (some 4), some (some 3)), (false, some (some 4), some none),
        (true, none, none)]) := by
  have hwf : loopAndMarks.WellFormed := by
    intro i
    match i with
    | 0 | 1 | 2 => decide
    | i + 3 =>
      rw [Nfa.state_of_size_le (Nat.le_add_left 3 i)]
      exact fun j hj => nomatch hj
  have hstarts : ∀ i ∈ [2, 0], i < loopAndMarks.size := by decide
  obtain ⟨-, found, hfound⟩ := determinizes_build hwf hstarts
  exact ⟨found, hfound, by decide +kernel⟩

end Dfa

end FrontEnd
