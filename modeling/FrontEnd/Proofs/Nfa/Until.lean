import FrontEnd.Nfa.Until
import FrontEnd.Proofs.Nfa.Thompson

/-!
# The automaton of first occurrences

The search follows the sets of states that the end pattern can be in when its occurrences may begin
anywhere.  A set is complete when it holds the exit of the end pattern, and a complete set is left
at once.  So the part leads to its exit by the strings that end with the first occurrence.

## Main Definitions

* `UntilSearch.follow` — the set behind a byte
* `UntilSearch.Finishes` — a string behind which a set is complete for the first time
* `UntilSearch.Drawn`, `UntilSearch.Between` — what the search keeps
* `UntilSearch.Ends`, `Nfa.UntilEnds` — the search as a loop without a bound

## Main Statements

* `UntilSearch.finishes_iff_mem_untilFirst` — from the entry, these are the strings that end with
  the first occurrence
* `Nfa.untilEnds_and_adds_addUntil` — the search ends, and adds a part for these strings

## Design Notes

The sets are numbered in the order in which they are met, and a set that has been met has a state of
its own.  A plan says which edges each set is to have; the search draws the plan, and the invariant
says that sets which have been dealt with have the edges of their plan, and that those which wait
have none.
-/

namespace FrontEnd

namespace UntilSearch

/-- The set behind a byte; an occurrence may begin anywhere. -/
def follow (sub : Nfa) (entry s : StateSet) (b : UInt8) : StateSet := (sub.step s b).union entry

/-- The string leads from a set to a complete one, for the first time at its end. -/
def Finishes (sub : Nfa) (entry : StateSet) (complete : Nat) : StateSet → List UInt8 → Prop
  | s, [] => s.mem complete = true
  | s, b :: w => s.mem complete = false ∧ Finishes sub entry complete (follow sub entry s b) w

/-- The edges of a set: the targets of the silent ones, and the sets that the others lead to. -/
structure Outgoing where
  silent : List Nat
  moves : List (StateSet × ByteSet)

/-- The groups of bytes that the search tells apart, each with one of its bytes. -/
def groupsOf (sub : Nfa) : List (ByteSet × UInt8) :=
  (ByteGroups.ofSets sub.moveSets).sets.zip (ByteGroups.ofSets sub.moveSets).representatives

/-- The search as a loop without a bound: rounds follow each other, however many, until no set
waits. -/
inductive Ends (sub : Nfa) (entry : StateSet) (complete : Nat) (groups : List (ByteSet × UInt8))
    (exit : Nat) : UntilSearch → Nfa → Prop
  | finished {search : UntilSearch} :
    search.waiting = [] → Ends sub entry complete groups exit search search.nfa
  | left {search : UntilSearch} {s : StateSet} {i : Nat} {waiting : List (StateSet × Nat)}
    {nfa : Nfa} :
    search.waiting = (s, i) :: waiting → s.mem complete = true →
      Ends sub entry complete groups exit
        { search with waiting := waiting, nfa := search.nfa.addSilent i exit } nfa →
        Ends sub entry complete groups exit search nfa
  | followed {search : UntilSearch} {s : StateSet} {i : Nat} {waiting : List (StateSet × Nat)}
    {nfa : Nfa} :
    search.waiting = (s, i) :: waiting → s.mem complete = false →
      Ends sub entry complete groups exit
        ((edges sub entry groups s).foldl (addEdge i) { search with waiting := waiting }) nfa →
        Ends sub entry complete groups exit search nfa

/-! ### First occurrences

A string ends with the first occurrence when the set behind it is complete, and no set in front of
it is.  In terms of languages, this is the first time that the string ends with a string of the end
pattern. -/

section Occurrences

variable {sub : Nfa} {entry : StateSet} {complete : Nat}

/-- All sets in front of the end are incomplete, and the last one is complete. -/
theorem finishes_iff {s : StateSet} {w : List UInt8} :
    Finishes sub entry complete s w ↔ (w.foldl (follow sub entry) s).mem complete = true ∧
      ∀ u, u <+: w → u ≠ w → (u.foldl (follow sub entry) s).mem complete = false := by
  induction w generalizing s with
  | nil =>
    refine (and_iff_left_of_imp fun _ u hu hne => ?_).symm
    exact absurd (List.prefix_nil.1 hu) hne
  | cons b w ih =>
    rw [Finishes, ih, and_left_comm, List.foldl_cons]
    apply and_congr_right
    intro _
    constructor
    · rintro ⟨hs, hall⟩ u hu hne
      cases u with
      | nil => exact hs
      | cons c u =>
        obtain ⟨rfl, htail⟩ := List.cons_prefix_cons.1 hu
        exact hall u htail fun h => hne (h ▸ rfl)
    · intro hall
      refine ⟨hall [] List.nil_prefix (by simp), fun u hu hne => ?_⟩
      exact hall (b :: u) (List.cons_prefix_cons.2 ⟨rfl, hu⟩) fun h => hne (List.cons.inj h).2

/-- Behind a string, the search is in the states that its suffixes lead to. -/
theorem mem_foldl_follow_iff (hwf : sub.WellFormed) {start : Nat} (hstart : start < sub.size)
    {w : List UInt8} {q : Nat} :
    (w.foldl (follow sub (sub.closure [start])) (sub.closure [start])).mem q = true ↔
      ∃ v, v <:+ w ∧ sub.Path start v q := by
  have hstates : ∀ i ∈ [start], i < sub.size := by simpa using hstart
  have hentry : ∀ q, (sub.closure [start]).mem q = true ↔ sub.Path start [] q := fun q => by
    simp [Nfa.mem_closure_iff hwf hstates]
  -- by induction from the end: a suffix grows by the last byte, or it is empty and starts anew
  induction w using List.reverseRecOn generalizing q with
  | nil => simp [hentry]
  | append_singleton w b ih =>
    set s := w.foldl (follow sub (sub.closure [start])) (sub.closure [start]) with hs
    have hclosed : ∀ i j, s.mem i = true → sub.Path i [] j → s.mem j = true := by
      intro i j hi hpath
      obtain ⟨v, hv, hi⟩ := ih.1 hi
      exact ih.2 ⟨v, hv, by simpa using hi.trans hpath⟩
    rw [List.foldl_append, List.foldl_cons, List.foldl_nil, ← hs, follow, StateSet.mem_union,
      Bool.or_eq_true, Nfa.mem_step_iff hwf hclosed, hentry]
    constructor
    · rintro (⟨i, hi, hpath⟩ | hpath)
      · obtain ⟨v, ⟨u, huv⟩, hv⟩ := ih.1 hi
        exact ⟨v ++ [b], ⟨u, by rw [← List.append_assoc, huv]⟩, hv.trans hpath⟩
      · exact ⟨[], List.nil_suffix, hpath⟩
    · rintro ⟨v, hv, hpath⟩
      rcases List.eq_nil_or_concat v with rfl | ⟨v, c, rfl⟩
      · exact .inr hpath
      · rw [List.concat_eq_append] at hv hpath
        obtain ⟨hsuffix, hc⟩ : v <:+ w ∧ c = b := by
          obtain ⟨u, hu⟩ := hv
          rw [← List.append_assoc] at hu
          obtain ⟨h, h'⟩ := List.append_inj' hu rfl
          exact ⟨⟨u, h⟩, by simpa using h'⟩
        obtain ⟨i, hi, hq⟩ := Nfa.path_append_iff.1 hpath
        exact .inl ⟨i, ih.2 ⟨v, hsuffix, hi⟩, hc ▸ hq⟩

/-- **The search finishes with the first occurrence.** -/
theorem finishes_iff_mem_untilFirst (hwf : sub.WellFormed) {start : Nat} (hstart : start < sub.size)
    {l : Language UInt8} (hl : ∀ w, sub.Path start w complete ↔ w ∈ l) {w : List UInt8} :
    Finishes sub (sub.closure [start]) complete (sub.closure [start]) w ↔ w ∈ untilFirst l := by
  have hmem : ∀ u : List UInt8,
      (u.foldl (follow sub (sub.closure [start])) (sub.closure [start])).mem complete = true ↔
        ∃ v ∈ l, v <:+ u := fun u => by
    simp only [mem_foldl_follow_iff hwf hstart, hl, and_comm]
  have hnot : ∀ u : List UInt8,
      (u.foldl (follow sub (sub.closure [start])) (sub.closure [start])).mem complete = false ↔
        ∀ v ∈ l, ¬ v <:+ u := fun u => by
    rw [← Bool.not_eq_true, hmem]
    simp
  rw [finishes_iff, hmem]
  exact and_congr_right fun _ => forall_congr' fun u => by rw [hnot]

end Occurrences

/-! ### Edges

Bytes that lead to one set are collected on one edge.  Together the edges of a set lead each byte to
the set behind it. -/

section Edges

/-- A byte that is added leads to its target, and the others lead where they have led before. -/
theorem mem_addTarget {target t : StateSet} {bytes : ByteSet} {edges : List (StateSet × ByteSet)}
    {b : UInt8} :
    (∃ c, (t, c) ∈ addTarget target bytes edges ∧ c.contains b = true) ↔
      (t = target ∧ bytes.contains b = true) ∨ ∃ c, (t, c) ∈ edges ∧ c.contains b = true := by
  induction edges with
  | nil => simp [addTarget, and_assoc]
  | cons edge rest ih =>
    obtain ⟨s, d⟩ := edge
    rw [addTarget]
    split
    · next h =>
      subst h
      simp only [List.mem_cons, Prod.mk.injEq, or_and_right, exists_or, and_assoc,
        exists_and_left, exists_eq_left, ByteSet.contains_union, Bool.or_eq_true]
      by_cases hts : t = s
      · simp [hts, or_assoc, or_left_comm]
      · simp [hts]
    · split
      · simp [or_and_right, exists_or, and_assoc]
      · simp only [List.mem_cons, or_and_right, exists_or, ih]
        exact or_left_comm

/-- A set that is added as a target brings in no other targets. -/
theorem eq_or_mem_of_mem_addTarget {target : StateSet} {bytes : ByteSet}
    {edges : List (StateSet × ByteSet)} {e : StateSet × ByteSet}
    (he : e ∈ addTarget target bytes edges) : e.1 = target ∨ e.1 ∈ edges.map Prod.fst := by
  induction edges with
  | nil => exact .inl (by simp_all [addTarget])
  | cons edge rest ih =>
    obtain ⟨s, d⟩ := edge
    rw [addTarget] at he
    split at he
    · next h =>
      rcases List.mem_cons.1 he with rfl | he
      · exact .inl h
      · exact .inr (List.mem_map_of_mem (List.mem_cons_of_mem _ he))
    · split at he
      · rcases List.mem_cons.1 he with rfl | he
        · exact .inl rfl
        · exact .inr (List.mem_map_of_mem he)
      · rcases List.mem_cons.1 he with rfl | he
        · exact .inr List.mem_cons_self
        · exact (ih he).imp_right (List.mem_cons_of_mem _)

/-- Each edge of a set leads to the set behind some byte. -/
theorem exists_eq_follow {sub : Nfa} {entry s : StateSet} {groups : List (ByteSet × UInt8)}
    {e : StateSet × ByteSet} (he : e ∈ edges sub entry groups s) :
    ∃ b, e.1 = follow sub entry s b := by
  have fold : ∀ (groups : List (ByteSet × UInt8)) (found : List (StateSet × ByteSet)),
      (∀ e ∈ found, ∃ b, e.1 = follow sub entry s b) →
      ∀ e ∈ groups.foldl (fun found p => addTarget (follow sub entry s p.2) p.1 found) found,
        ∃ b, e.1 = follow sub entry s b := by
    intro groups
    induction groups with
    | nil => exact fun _ hfound => hfound
    | cons p groups ih =>
      intro found hfound
      apply ih _
      intro e he
      rcases eq_or_mem_of_mem_addTarget he with heq | hmem
      · exact ⟨p.2, heq⟩
      · obtain ⟨e', he', heq⟩ := List.mem_map.1 hmem
        exact heq ▸ hfound e' he'
  exact fold groups [] (by simp) e he

/-- The edges of a set lead each byte to the set behind it. -/
theorem mem_edges_iff {sub : Nfa} {entry s t : StateSet} {b : UInt8} :
    (∃ c, (t, c) ∈ edges sub entry (groupsOf sub) s ∧ c.contains b = true) ↔
      t = follow sub entry s b := by
  have fold : ∀ (groups : List (ByteSet × UInt8)) (found : List (StateSet × ByteSet)),
      (∃ c, (t, c) ∈ groups.foldl
          (fun found p => addTarget (follow sub entry s p.2) p.1 found) found ∧
          c.contains b = true) ↔
        (∃ p ∈ groups, t = follow sub entry s p.2 ∧ p.1.contains b = true) ∨
          ∃ c, (t, c) ∈ found ∧ c.contains b = true := by
    intro groups
    induction groups with
    | nil => simp
    | cons p groups ih =>
      intro found
      rw [List.foldl_cons, ih, mem_addTarget, ← or_assoc]
      exact or_congr_left (by simp [follow, or_comm])
  have same : ∀ {p}, p ∈ groupsOf sub → p.1.contains b = true →
      follow sub entry s p.2 = follow sub entry s b := fun hp hb => by
    rw [follow, follow, Nfa.step, Nfa.step,
      Nfa.stepFrom_congr ((ByteGroups.contains_iff_of_mem_zip hp b).1 hb)]
  -- each group is followed by one byte of it, which stands for the others
  refine (fold (groupsOf sub) []).trans ?_
  constructor
  · rintro (⟨p, hp, rfl, hb⟩ | ⟨c, hc, -⟩)
    · exact same hp hb
    · cases hc
  · rintro rfl
    obtain ⟨p, hp, hb⟩ := ByteGroups.exists_mem_zip sub.moveSets b
    exact .inl ⟨p, hp, (same hp hb).symm, hb⟩

end Edges

/-! ### The search

One round takes a set from the worklist, meets the sets behind its bytes and draws its edges.  There
are no more sets than bit strings over the states of the end pattern, so the rounds come to an end
by themselves. -/

section Search

variable {sub nfa : Nfa} {entry : StateSet} {complete n first exit : Nat}
  {groups : List (ByteSet × UInt8)} {plan : StateSet → Outgoing} {search : UntilSearch}

/-- The edges that a set gets: a complete set is left, the others follow every byte. -/
def settled (sub : Nfa) (entry : StateSet) (complete exit : Nat)
    (groups : List (ByteSet × UInt8)) (s : StateSet) : Outgoing :=
  if s.mem complete then ⟨[exit], []⟩ else ⟨[], edges sub entry groups s⟩

/-- The automaton of the search shows a plan: the states from `first` on are the exit and one state
for each known set, which has the edges that are planned for the set. -/
structure Drawn (n first exit : Nat) (nfa : Nfa) (plan : StateSet → Outgoing)
    (search : UntilSearch) : Prop where
  keeps : Nfa.Keeps first nfa search.nfa
  sets_nodup : (search.known.map Prod.fst).Nodup
  states_nodup : (search.known.map Prod.snd).Nodup
  within : ∀ p ∈ search.known, p.1.Within n
  range : ∀ p ∈ search.known, first ≤ p.2 ∧ p.2 < search.nfa.size ∧ p.2 ≠ exit
  covers : ∀ i, first ≤ i → i < search.nfa.size → i = exit ∨ ∃ s, (s, i) ∈ search.known
  exit_mem : first ≤ exit ∧ exit < search.nfa.size
  exit_bare : search.nfa.state exit = Nfa.State.bare
  accept : ∀ p ∈ search.known, (search.nfa.state p.2).accept = none
  silent : ∀ p ∈ search.known, (search.nfa.state p.2).silent = (plan p.1).silent
  moves : ∀ p ∈ search.known, ∀ c k, (c, k) ∈ (search.nfa.state p.2).moves ↔
    ∃ t, (t, c) ∈ (plan p.1).moves ∧ (t, k) ∈ search.known
  met : ∀ p ∈ search.known, ∀ e ∈ (plan p.1).moves, ∃ k, (e.1, k) ∈ search.known
  unmet : ∀ s, (∀ i, (s, i) ∉ search.known) → plan s = ⟨[], []⟩

/-- A set has one state. -/
theorem Drawn.state_unique (h : Drawn n first exit nfa plan search) {s : StateSet} {i j : Nat}
    (hi : (s, i) ∈ search.known) (hj : (s, j) ∈ search.known) : i = j :=
  congrArg Prod.snd (List.inj_on_of_nodup_map h.sets_nodup hi hj rfl)

/-- Two known sets differ in the set and in the state, or in neither. -/
theorem Drawn.eq_or_ne (h : Drawn n first exit nfa plan search) {p q : StateSet × Nat}
    (hp : p ∈ search.known) (hq : q ∈ search.known) : p = q ∨ p.1 ≠ q.1 ∧ p.2 ≠ q.2 := by
  by_cases heq : p = q
  · exact .inl heq
  · exact .inr ⟨fun h1 => heq (List.inj_on_of_nodup_map h.sets_nodup hp hq h1),
      fun h2 => heq (List.inj_on_of_nodup_map h.states_nodup hp hq h2)⟩

/-- A set that has not been met gets a new state. -/
theorem Drawn.meet (h : Drawn n first exit nfa plan search) {s : StateSet} (hs : s.Within n)
    (hnew : ∀ i, (s, i) ∉ search.known) :
    Drawn n first exit nfa plan ⟨search.nfa.addState.1, (s, search.nfa.size) :: search.known,
      (s, search.nfa.size) :: search.waiting⟩ where
  keeps := ⟨h.keeps.size_le.trans (by simp), by simpa using h.keeps.state_eq⟩
  sets_nodup := by
    refine List.nodup_cons.2 ⟨fun hmem => ?_, h.sets_nodup⟩
    obtain ⟨⟨_, i⟩, hi, rfl⟩ := List.mem_map.1 hmem
    exact hnew i hi
  states_nodup := by
    refine List.nodup_cons.2 ⟨fun hmem => ?_, h.states_nodup⟩
    obtain ⟨p, hp, heq⟩ := List.mem_map.1 hmem
    exact absurd (h.range p hp).2.1 (by simp [heq])
  within := List.forall_mem_cons.2 ⟨hs, h.within⟩
  range := by
    have hexit := h.exit_mem
    refine List.forall_mem_cons.2 ⟨⟨by omega, by simp, by omega⟩, fun p hp => ?_⟩
    have hp := h.range p hp
    exact ⟨hp.1, by simp; omega, hp.2.2⟩
  covers := by
    intro i hi hlt
    rw [Nfa.size_addState] at hlt
    rcases Nat.lt_succ_iff_lt_or_eq.1 hlt with hlt | rfl
    · exact (h.covers i hi hlt).imp_right fun ⟨t, ht⟩ => ⟨t, List.mem_cons_of_mem _ ht⟩
    · exact .inr ⟨s, List.mem_cons_self⟩
  exit_mem := ⟨h.exit_mem.1, by simpa using Nat.lt_succ_of_lt h.exit_mem.2⟩
  exit_bare := by simpa using h.exit_bare
  accept := by
    refine List.forall_mem_cons.2 ⟨?_, by simpa using h.accept⟩
    rw [Nfa.state_addState, Nfa.state_of_size_le le_rfl]
    rfl
  silent := by
    refine List.forall_mem_cons.2 ⟨?_, by simpa using h.silent⟩
    rw [Nfa.state_addState, Nfa.state_of_size_le le_rfl, h.unmet s hnew]
    rfl
  moves := by
    refine List.forall_mem_cons.2 ⟨fun c k => ?_, fun p hp c k => ?_⟩
    · rw [Nfa.state_addState, Nfa.state_of_size_le le_rfl, h.unmet s hnew]
      simp [Nfa.State.bare]
    · rw [Nfa.state_addState, h.moves p hp]
      apply exists_congr
      intro t
      apply and_congr_right
      intro ht
      -- the target of a planned edge has been met before
      obtain ⟨j, hj⟩ := h.met p hp _ ht
      have hne : t ≠ s := by
        rintro rfl
        exact hnew j hj
      simp [hne]
  met := by
    refine List.forall_mem_cons.2 ⟨by simp [h.unmet s hnew], fun p hp e he => ?_⟩
    obtain ⟨k, hk⟩ := h.met p hp e he
    exact ⟨k, List.mem_cons_of_mem _ hk⟩
  unmet := fun t ht => h.unmet t fun i hi => ht i (List.mem_cons_of_mem _ hi)

/-- The state of a known set is changed along with its plan. -/
theorem Drawn.update (h : Drawn n first exit nfa plan search) {s : StateSet} {i : Nat}
    (hi : (s, i) ∈ search.known) {nfa' : Nfa} {o : Outgoing} (hsize : nfa'.size = search.nfa.size)
    (hother : ∀ k, k ≠ i → nfa'.state k = search.nfa.state k)
    (haccept : (nfa'.state i).accept = none) (hsilent : (nfa'.state i).silent = o.silent)
    (hmoves : ∀ c k, (c, k) ∈ (nfa'.state i).moves ↔
      ∃ t, (t, c) ∈ o.moves ∧ (t, k) ∈ search.known)
    (hmet : ∀ e ∈ o.moves, ∃ k, (e.1, k) ∈ search.known) :
    Drawn n first exit nfa (Function.update plan s o) { search with nfa := nfa' } where
  -- for each known set, it is the one whose plan changes, or it differs in the set and in the state
  keeps := by
    refine ⟨hsize ▸ h.keeps.size_le, fun k hk => ?_⟩
    have hne : k ≠ i := fun heq => absurd (h.range _ hi).1 (by simp only; omega)
    rw [hother k hne, h.keeps.state_eq k hk]
  sets_nodup := h.sets_nodup
  states_nodup := h.states_nodup
  within := h.within
  range := by simpa [hsize] using h.range
  covers := by simpa [hsize] using h.covers
  exit_mem := by simpa [hsize] using h.exit_mem
  exit_bare := by rw [hother exit (h.range _ hi).2.2.symm, h.exit_bare]
  accept := by
    intro p hp
    rcases h.eq_or_ne hp hi with rfl | ⟨-, hne⟩
    · exact haccept
    · rw [hother _ hne, h.accept p hp]
  silent := by
    intro p hp
    rcases h.eq_or_ne hp hi with rfl | ⟨hset, hne⟩
    · rw [Function.update_self, hsilent]
    · rw [Function.update_of_ne hset, hother _ hne, h.silent p hp]
  moves := by
    intro p hp c k
    rcases h.eq_or_ne hp hi with rfl | ⟨hset, hne⟩
    · rw [Function.update_self]
      exact hmoves c k
    · rw [Function.update_of_ne hset, hother _ hne, h.moves p hp]
  met := by
    intro p hp
    rcases h.eq_or_ne hp hi with rfl | ⟨hset, -⟩
    · rw [Function.update_self]
      exact hmet
    · rw [Function.update_of_ne hset]
      exact h.met p hp
  unmet := by
    intro t ht
    have hne : t ≠ s := by
      rintro rfl
      exact ht i hi
    rw [Function.update_of_ne hne]
    exact h.unmet t ht

/-- An edge to a set that has been met is added to the plan and to the automaton. -/
theorem Drawn.addMove (h : Drawn n first exit nfa plan search) {s t : StateSet} {i j : Nat}
    {c : ByteSet} (hi : (s, i) ∈ search.known) (hj : (t, j) ∈ search.known) :
    Drawn n first exit nfa
      (Function.update plan s { plan s with moves := (plan s).moves ++ [(t, c)] })
      { search with nfa := search.nfa.addMove i c j } := by
  have hstate := Nfa.state_addMove_self (h.range _ hi).2.1 (j := j) (s := c)
  refine h.update hi (by simp) (fun k hk => Nfa.state_addMove_of_ne hk) ?_ ?_ ?_ ?_
  · rw [hstate]
    exact h.accept _ hi
  · rw [hstate]
    exact h.silent _ hi
  · intro d k
    rw [hstate]
    simp only [List.mem_append, or_and_right, exists_or, h.moves _ hi, List.mem_singleton,
      Prod.mk.injEq]
    refine or_congr_right ⟨?_, ?_⟩
    · rintro ⟨rfl, rfl⟩
      exact ⟨t, ⟨rfl, rfl⟩, hj⟩
    · rintro ⟨_, ⟨rfl, rfl⟩, hk⟩
      exact ⟨rfl, h.state_unique hk hj⟩
  · intro e he
    rcases List.mem_append.1 he with he | he
    · exact h.met _ hi e he
    · obtain rfl := List.mem_singleton.1 he
      exact ⟨j, hj⟩

/-- A silent edge to the exit is added to the plan and to the automaton. -/
theorem Drawn.addSilent (h : Drawn n first exit nfa plan search) {s : StateSet} {i : Nat}
    (hi : (s, i) ∈ search.known) :
    Drawn n first exit nfa
      (Function.update plan s { plan s with silent := (plan s).silent ++ [exit] })
      { search with nfa := search.nfa.addSilent i exit } := by
  have hstate := Nfa.state_addSilent_self (h.range _ hi).2.1 (j := exit)
  refine h.update hi (by simp) (fun k hk => Nfa.state_addSilent_of_ne hk) ?_ ?_ ?_ (h.met _ hi)
  · rw [hstate]
    exact h.accept _ hi
  · rw [hstate]
    exact congrArg (· ++ [exit]) (h.silent _ hi)
  · rw [hstate]
    exact h.moves _ hi

/-- A known set has been served: its plan has changed, and the sets that this has brought up are
known and wait. -/
structure Serves (n first exit : Nat) (nfa : Nfa) (plan : StateSet → Outgoing)
    (search search' : UntilSearch) : Prop where
  drawn : Drawn n first exit nfa plan search'
  fresh : ∃ new, search'.known = new ++ search.known ∧ search'.waiting = new ++ search.waiting

/-- **One edge**: its target gets a state if it is new, and the edge is drawn. -/
theorem Drawn.addEdge (h : Drawn n first exit nfa plan search) {s : StateSet} {i : Nat}
    (hi : (s, i) ∈ search.known) {e : StateSet × ByteSet} (he : e.1.Within n) :
    Serves n first exit nfa
      (Function.update plan s { plan s with moves := (plan s).moves ++ [e] })
      search (UntilSearch.addEdge i search e) := by
  rw [UntilSearch.addEdge]
  split
  · next j hj =>
    obtain ⟨l, r, hl, -⟩ := List.lookup_eq_some_iff.1 hj
    have hmem : (e.1, j) ∈ search.known := by simp [hl]
    exact ⟨h.addMove hi hmem, [], rfl, rfl⟩
  · next hnone =>
    have hnew : ∀ k, (e.1, k) ∉ search.known := fun k hk => by
      simpa using List.lookup_eq_none_iff.1 hnone _ hk
    exact ⟨(h.meet he hnew).addMove (List.mem_cons_of_mem _ hi) List.mem_cons_self, [_], rfl, rfl⟩

/-- **All edges of a set**, by induction on the list. -/
theorem Drawn.addEdges (h : Drawn n first exit nfa plan search) {s : StateSet} {i : Nat}
    (hi : (s, i) ∈ search.known) {es : List (StateSet × ByteSet)} (hes : ∀ e ∈ es, e.1.Within n) :
    Serves n first exit nfa
      (Function.update plan s { plan s with moves := (plan s).moves ++ es })
      search (es.foldl (UntilSearch.addEdge i) search) := by
  induction es generalizing plan search with
  | nil => exact ⟨by simpa using h, [], rfl, rfl⟩
  | cons e es ih =>
    rw [List.forall_mem_cons] at hes
    obtain ⟨hdrawn, new, hknown, hwaiting⟩ := h.addEdge hi hes.1
    obtain ⟨hdrawn', new', hknown', hwaiting'⟩ := ih hdrawn (by simp [hknown, hi]) hes.2
    refine ⟨?_, new' ++ new, ?_, ?_⟩
    · simpa using hdrawn'
    · rw [List.foldl_cons, hknown', hknown, List.append_assoc]
    · rw [List.foldl_cons, hwaiting', hwaiting, List.append_assoc]

/-- The state between two steps of the search: the sets that wait have no edges yet, the other known
sets have all of theirs. -/
structure Between (sub : Nfa) (entry : StateSet) (complete first exit : Nat)
    (groups : List (ByteSet × UInt8)) (nfa : Nfa) (plan : StateSet → Outgoing)
    (search : UntilSearch) : Prop where
  drawn : Drawn sub.size first exit nfa plan search
  sublist : search.waiting.Sublist search.known
  plan_waiting : ∀ p ∈ search.waiting, plan p.1 = ⟨[], []⟩
  plan_served : ∀ p ∈ search.known, p ∉ search.waiting →
    plan p.1 = settled sub entry complete exit groups p.1

/-- Serving the latest waiting set leads to such a state again. -/
theorem Between.serve {search' : UntilSearch} {s : StateSet} {i : Nat}
    {waiting : List (StateSet × Nat)}
    (h : Between sub entry complete first exit groups nfa plan search)
    (hw : search.waiting = (s, i) :: waiting)
    (hs : Serves sub.size first exit nfa
      (Function.update plan s (settled sub entry complete exit groups s))
      { search with waiting := waiting } search') :
    Between sub entry complete first exit groups nfa
      (Function.update plan s (settled sub entry complete exit groups s)) search' := by
  obtain ⟨hdrawn, new, hknown, hwaiting⟩ := hs
  simp only at hknown hwaiting
  have hsub : ((s, i) :: waiting).Sublist search.known := hw ▸ h.sublist
  have hi : (s, i) ∈ search.known := hsub.subset List.mem_cons_self
  have hnodup : ((new ++ search.known).map Prod.fst).Nodup := hknown ▸ hdrawn.sets_nodup
  refine ⟨hdrawn, ?_, ?_, ?_⟩
  · rw [hknown, hwaiting]
    exact (List.Sublist.refl new).append ((List.sublist_cons_self _ _).trans hsub)
  · -- a set that waits has just been met, or it has waited before and is not the one served
    intro p hp
    rw [hwaiting, List.mem_append] at hp
    rcases hp with hp | hp
    · have hnew : ∀ k, (p.1, k) ∉ search.known := fun k hk =>
        (List.disjoint_of_nodup_append (List.map_append ▸ hnodup))
          (List.mem_map_of_mem hp) (List.mem_map.2 ⟨_, hk, rfl⟩)
      have hne : p.1 ≠ s := fun heq => hnew i (heq ▸ hi)
      rw [Function.update_of_ne hne, h.drawn.unmet _ hnew]
    · have hp' : p ∈ search.known := hsub.subset (List.mem_cons_of_mem _ hp)
      have hne : p ≠ (s, i) := by
        rintro rfl
        have := (hsub.map Prod.fst).nodup h.drawn.sets_nodup
        exact (List.nodup_cons.1 this).1 (List.mem_map_of_mem hp)
      have hset := ((h.drawn.eq_or_ne hp' hi).resolve_left hne).1
      rw [Function.update_of_ne hset]
      exact h.plan_waiting p (hw ▸ List.mem_cons_of_mem _ hp)
  · -- the sets that do not wait are those of before, and the one that has been served
    intro p hp hpw
    rw [hwaiting, List.mem_append, not_or] at hpw
    rw [hknown, List.mem_append] at hp
    have hp := hp.resolve_left hpw.1
    rcases h.drawn.eq_or_ne hp hi with rfl | ⟨hset, hne⟩
    · rw [Function.update_self]
    · rw [Function.update_of_ne hset]
      apply h.plan_served p hp
      intro hmem
      rw [hw, List.mem_cons] at hmem
      exact hmem.elim (fun heq => hset (heq ▸ rfl)) hpw.2

theorem Between.length_le (h : Between sub entry complete first exit groups nfa plan search) :
    search.known.length ≤ 2 ^ sub.size := by
  refine le_of_eq_of_le (by simp)
    (StateSet.length_le_two_pow h.drawn.sets_nodup ?_)
  simpa using fun s i hi => h.drawn.within (s, i) hi

/-- **The search ends with all sets served**, within the bound on the number of sets. -/
theorem exists_run_eq (bound : Nat)
    (hedges : ∀ s, s.Within sub.size → ∀ e ∈ edges sub entry groups s, e.1.Within sub.size)
    (h : Between sub entry complete first exit groups nfa plan search)
    (hbound : 2 ^ sub.size + search.waiting.length ≤ search.known.length + bound) :
    ∃ search' plan', run sub entry complete groups exit bound search = search'.nfa ∧
      Ends sub entry complete groups exit search search'.nfa ∧
      Between sub entry complete first exit groups nfa plan' search' ∧ search'.waiting = [] ∧
      ∀ p ∈ search.known, p ∈ search'.known := by
  -- by induction on the bound: each step serves a set, and no more sets can be met than there are
  induction bound generalizing search plan with
  | zero =>
    have hle := h.length_le
    have hw : search.waiting = [] := List.length_eq_zero_iff.1 (by omega)
    exact ⟨search, plan, rfl, .finished hw, h, hw, fun _ hp => hp⟩
  | succ bound ih =>
    rw [run]
    split
    · next hw => exact ⟨search, plan, rfl, .finished hw, h, hw, fun _ hp => hp⟩
    · next s i waiting hw =>
      have hi : (s, i) ∈ search.known := h.sublist.subset (hw ▸ List.mem_cons_self)
      have hplan : plan s = ⟨[], []⟩ := h.plan_waiting (s, i) (hw ▸ List.mem_cons_self)
      have hdrawn : Drawn sub.size first exit nfa plan { search with waiting := waiting } :=
        { h.drawn with }
      have hstep : ∀ search', Serves sub.size first exit nfa
          (Function.update plan s (settled sub entry complete exit groups s))
          { search with waiting := waiting } search' →
          ∃ search'' plan', run sub entry complete groups exit bound search' = search''.nfa ∧
            Ends sub entry complete groups exit search' search''.nfa ∧
            Between sub entry complete first exit groups nfa plan' search'' ∧
            search''.waiting = [] ∧ ∀ p ∈ search.known, p ∈ search''.known := by
        intro search' hs
        obtain ⟨new, hknown, hwaiting⟩ := hs.fresh
        have hlength : 2 ^ sub.size + search'.waiting.length ≤ search'.known.length + bound := by
          rw [hw, List.length_cons] at hbound
          simp only [hknown, hwaiting, List.length_append]
          omega
        obtain ⟨search'', plan', hrun, hends, hbetween, hnil, hmem⟩ := ih (h.serve hw hs) hlength
        exact ⟨search'', plan', hrun, hends, hbetween, hnil,
          fun p hp => hmem p (by simp [hknown, hp])⟩
      -- a complete set gets its way out, another one its edges
      split
      · next hc =>
        have hplan' : settled sub entry complete exit groups s =
            { plan s with silent := (plan s).silent ++ [exit] } := by
          simp [settled, hc, hplan]
        obtain ⟨last, plan', hrun, hends, hrest⟩ :=
          hstep { search with waiting := waiting, nfa := search.nfa.addSilent i exit }
            ⟨hplan' ▸ hdrawn.addSilent hi, [], rfl, rfl⟩
        exact ⟨last, plan', hrun, .left hw hc hends, hrest⟩
      · next hc =>
        have hplan' : settled sub entry complete exit groups s =
            { plan s with moves := (plan s).moves ++ edges sub entry groups s } := by
          simp [settled, hc, hplan]
        obtain ⟨last, plan', hrun, hends, hrest⟩ :=
          hstep _ (hplan' ▸ hdrawn.addEdges hi (hedges s (h.drawn.within _ hi)))
        exact ⟨last, plan', hrun, .followed hw (Bool.not_eq_true _ ▸ hc) hends, hrest⟩

end Search

/-! ### The part

When the worklist is empty, each set that has been met has its edges, so the strings from its state
to the exit are those that finish from this set. -/

section Part

variable {sub nfa : Nfa} {entry : StateSet} {complete first exit : Nat}
  {groups : List (ByteSet × UInt8)} {plan : StateSet → Outgoing} {search : UntilSearch}

/-- The search starts with the two new states: that of the entry, and the exit. -/
theorem between_start (hentry : entry.Within sub.size) :
    Between sub entry complete nfa.size (nfa.size + 1) groups nfa (fun _ => ⟨[], []⟩)
      ⟨nfa.addState.1.addState.1, [(entry, nfa.size)], [(entry, nfa.size)]⟩ where
  sublist := List.Sublist.refl _
  plan_waiting := fun _ _ => rfl
  plan_served := fun _ hp hpw => absurd hp hpw
  drawn :=
    { keeps := ⟨by simp; omega, by simp⟩
      sets_nodup := by simp
      states_nodup := by simp
      within := by simpa using hentry
      range := by
        intro p hp
        obtain rfl := List.mem_singleton.1 hp
        simp only [Nfa.size_addState, ne_eq]
        omega
      covers := by
        intro i hi hlt
        simp only [Nfa.size_addState] at hlt
        rcases (by omega : i = nfa.size + 1 ∨ i = nfa.size) with h | h
        · exact .inl h
        · exact .inr ⟨entry, by simp [h]⟩
      exit_mem := by simp
      exit_bare := by simp [Nfa.state_of_size_le]
      accept := by simp [Nfa.state_of_size_le, Nfa.State.bare]
      silent := by simp [Nfa.state_of_size_le, Nfa.State.bare]
      moves := by simp [Nfa.state_of_size_le, Nfa.State.bare]
      met := by simp
      unmet := fun _ _ => rfl }

/-- When the search has ended, the state of a complete set leads to the exit at once, and the state
of another set leads there over the state of the set behind the first byte. -/
theorem mem_wordsTo_known
    (h : Between sub entry complete first exit (groupsOf sub) nfa plan search)
    (hw : search.waiting = []) {w : List UInt8} {s : StateSet} {i : Nat}
    (hi : (s, i) ∈ search.known) :
    w ∈ search.nfa.wordsTo exit i ↔ if s.mem complete then w = [] else ∃ b v j, w = b :: v ∧
      (follow sub entry s b, j) ∈ search.known ∧ v ∈ search.nfa.wordsTo exit j := by
  have hne : i ≠ exit := (h.drawn.range _ hi).2.2
  have hplan := h.plan_served (s, i) hi (by simp [hw])
  have hsilent := h.drawn.silent _ hi
  have hmoves := h.drawn.moves _ hi
  rw [settled] at hplan
  split
  · next hc =>
    rw [if_pos hc] at hplan
    have hnil : (search.nfa.state i).moves = [] := by
      refine List.eq_nil_iff_forall_not_mem.2 fun (c, k) hk => ?_
      obtain ⟨t, ht, -⟩ := (hmoves c k).1 hk
      simp [hplan] at ht
    rw [Nfa.wordsTo_of_silent_singleton hne hnil (by rw [hsilent, hplan]), Nfa.wordsTo_self,
      Language.mem_one]
  · next hc =>
    rw [if_neg hc] at hplan
    rw [Nfa.mem_wordsTo_of_silent_nil hne (by rw [hsilent, hplan])]
    constructor
    · rintro ⟨c, j, b, v, hmove, hb, hv, rfl⟩
      obtain ⟨t, ht, hj⟩ := (hmoves c j).1 hmove
      rw [hplan] at ht
      obtain rfl := mem_edges_iff.1 ⟨c, ht, hb⟩
      exact ⟨b, v, j, rfl, hj, hv⟩
    · rintro ⟨b, v, j, rfl, hj, hv⟩
      obtain ⟨c, hc, hb⟩ := mem_edges_iff.2 (rfl : follow sub entry s b = _)
      exact ⟨c, j, b, v, (hmoves c j).2 ⟨_, hplan ▸ hc, hj⟩, hb, hv, rfl⟩

/-- When the search has ended, the state of a set leads to the exit by the strings that finish
there. -/
theorem mem_wordsTo_iff
    (h : Between sub entry complete first exit (groupsOf sub) nfa plan search)
    (hw : search.waiting = []) {w : List UInt8} {s : StateSet} {i : Nat}
    (hi : (s, i) ∈ search.known) :
    w ∈ search.nfa.wordsTo exit i ↔ Finishes sub entry complete s w := by
  -- by induction on the string: behind the first byte, the state of the next set is in its place
  induction w generalizing s i with
  | nil =>
    rw [mem_wordsTo_known h hw hi, Finishes]
    split
    · next hc => simp [hc]
    · next hc => simp [hc]
  | cons b w ih =>
    rw [mem_wordsTo_known h hw hi, Finishes]
    split
    · next hc => simp [hc]
    · next hc =>
      rw [Bool.not_eq_true] at hc
      constructor
      · rintro ⟨_, _, j, heq, hj, hv⟩
        cases heq
        exact ⟨hc, (ih hj).1 hv⟩
      · rintro ⟨-, hfin⟩
        obtain ⟨c, hedge, hb⟩ := mem_edges_iff.2 (rfl : follow sub entry s b = _)
        have hplan := h.plan_served (s, i) hi (by simp [hw])
        rw [settled, if_neg (by simp [hc])] at hplan
        obtain ⟨j, hj⟩ := h.drawn.met (s, i) hi (follow sub entry s b, c) (hplan ▸ hedge)
        exact ⟨b, w, j, rfl, hj, (ih hj).2 hfin⟩

/-- When the search has ended, only the exit leads out of its states. -/
theorem leftBy (h : Between sub entry complete first exit groups nfa plan search)
    (hw : search.waiting = []) :
    search.nfa.LeftBy (Set.Ico first search.nfa.size) exit := by
  intro i hi hne j hj
  obtain ⟨s, hs⟩ := (h.drawn.covers i hi.1 hi.2).resolve_left hne
  have hplan := h.plan_served (s, i) hs (by simp [hw])
  rcases List.mem_append.1 hj with hj | hj
  · rw [h.drawn.silent _ hs, hplan, settled] at hj
    split at hj
    · exact List.mem_singleton.1 hj ▸ h.drawn.exit_mem
    · cases hj
  · obtain ⟨⟨c, k⟩, hk, rfl⟩ := List.mem_map.1 hj
    obtain ⟨t, -, ht⟩ := (h.drawn.moves _ hs c k).1 hk
    exact ⟨(h.drawn.range _ ht).1, (h.drawn.range _ ht).2.1⟩

end Part

end UntilSearch

namespace Nfa

/-- All edges of an automaton that is one part lead to its states. -/
theorem Built.wellFormed {nfa : Nfa} {f : Fragment} {l : Language UInt8}
    (h : Built 0 nfa f l) : nfa.WellFormed := by
  intro i j hj
  by_cases hi : i < nfa.size
  · exact (h.closed i ⟨Nat.zero_le i, hi⟩ j hj).2
  · rw [state_of_size_le (not_lt.1 hi)] at hj
    simp at hj

/-- The search for the first occurrence of an expression behind the states of an automaton, as a
loop without a bound, ends with the automaton `nfa'`. -/
def UntilEnds (nfa : Nfa) (node : Node) (nfa' : Nfa) : Prop :=
  let (sub, f) := addNode node Nfa.empty
  let entry := sub.closure [f.start]
  UntilSearch.Ends sub entry f.stop (UntilSearch.groupsOf sub) (nfa.size + 1)
    ⟨nfa.addState.1.addState.1, [(entry, nfa.size)], [(entry, nfa.size)]⟩ nfa'

open UntilSearch in
/-- **A part for first occurrences is added**, and the search for its states ends by itself. -/
theorem untilEnds_and_adds_addUntil (nfa : Nfa) (node : Node) :
    UntilEnds nfa node (addUntil nfa node).1 ∧
      Adds nfa (addUntil nfa node) (untilFirst node.language) := by
  obtain ⟨-, hbuilt⟩ := adds_addNode Nfa.empty node
  rw [addUntil, UntilEnds]
  generalize addNode node Nfa.empty = result at hbuilt ⊢
  obtain ⟨sub, f⟩ := result
  have hwf : sub.WellFormed := hbuilt.wellFormed
  have hstart : f.start < sub.size := hbuilt.start_lt
  have hwords : ∀ w, sub.Path f.start w f.stop ↔ w ∈ node.language := fun w => by
    rw [path_iff_mem_wordsTo hbuilt.targets_stop, hbuilt.isPart.wordsTo_eq]
  have hentry : (sub.closure [f.start]).Within sub.size :=
    within_closure hwf (by simpa using hstart)
  have hedges : ∀ s : StateSet, s.Within sub.size →
      ∀ e ∈ edges sub (sub.closure [f.start]) (groupsOf sub) s, e.1.Within sub.size :=
    fun s _ e he => by
      obtain ⟨b, hb⟩ := exists_eq_follow he
      exact hb ▸ (within_stepFrom hwf s.toList b).union hentry
  have hbegin : Between sub (sub.closure [f.start]) f.stop nfa.size (nfa.size + 1) (groupsOf sub)
      nfa _ _ := between_start hentry
  obtain ⟨search, plan, hrun, hends, hbetween, hw, hknown⟩ :=
    exists_run_eq (1 <<< sub.size) hedges hbegin (by simp [Nat.one_shiftLeft, Nat.add_comm])
  have hi := hknown _ List.mem_cons_self
  have hdrawn := hbetween.drawn
  simp only [groupsOf] at hrun
  simp only [addState_snd, size_addState, hrun]
  refine ⟨hends, hdrawn.keeps, ⟨⟨(hdrawn.range _ hi).1, (hdrawn.range _ hi).2.1⟩, hdrawn.exit_mem,
    leftBy hbetween hw, ?_⟩, hdrawn.exit_bare, ?_⟩
  · ext w
    rw [mem_wordsTo_iff hbetween hw hi, finishes_iff_mem_untilFirst hwf hstart hwords]
  · intro i hi
    by_cases hlt : i < search.nfa.size
    · rcases hdrawn.covers i hi hlt with rfl | ⟨s, hs⟩
      · rw [hdrawn.exit_bare]
        rfl
      · exact hdrawn.accept _ hs
    · rw [state_of_size_le (not_lt.1 hlt)]
      rfl

/-- The search for an expression adds a part for the strings that end with its first occurrence. -/
theorem adds_addUntil (nfa : Nfa) (node : Node) :
    Adds nfa (addUntil nfa node) (untilFirst node.language) :=
  (untilEnds_and_adds_addUntil nfa node).2

end Nfa

end FrontEnd
