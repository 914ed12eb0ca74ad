import FrontEnd.Proofs.Nfa.Rules

/-!
# Automata that do not tell bytes apart

A relation says which bytes are to be read alike.  When the sets of the expressions respect it, so
do the sets on the edges of the automaton that is built from them: they are sets of the expressions,
or unions of groups that such sets do not cut.  So related bytes belong to one group.

## Main Definitions

* `ByteSet.Respects`, `Node.Respects`, `Nfa.Respects` — a set, the sets of an expression and the
  sets on all edges do not tell related bytes apart

## Main Statements

* `ByteGroups.group_eq_of_respects` — related bytes belong to one group
* `Nfa.Respects.addNode`, `Nfa.Respects.addUntil` — the parts of expressions respect the relation
* `Nfa.respects_ofRules` — the automaton of rules respects the relation when their patterns do

## Design Notes

Every operation of the construction adds edges only with sets that it has been given, or with unions
of groups.  So one lemma for each operation is enough, the loops follow by induction on their items,
and the relation is never looked at.
-/

namespace FrontEnd

variable {R : UInt8 → UInt8 → Prop}

/-- The set does not tell related bytes apart. -/
def ByteSet.Respects (R : UInt8 → UInt8 → Prop) (s : ByteSet) : Prop :=
  ∀ a b, R a b → s.contains a = s.contains b

/-- The sets of an expression do not tell related bytes apart. -/
inductive Node.Respects (R : UInt8 → UInt8 → Prop) : Node → Prop
  | empty : Respects R .empty
  | set {s : ByteSet} : s.Respects R → Respects R (.set s)
  | concat {items : List Node} : (∀ item ∈ items, Respects R item) → Respects R (.concat items)
  | alt {items : List Node} : (∀ item ∈ items, Respects R item) → Respects R (.alt items)
  | repeated {node : Node} {min : Nat} {max : Option Nat} :
    Respects R node → Respects R (.repeated node min max)

/-- The patterns of a rule do not tell related bytes apart. -/
structure ResolvedRule.Respects (R : UInt8 → UInt8 → Prop) (r : ResolvedRule) : Prop where
  start : r.start.node.Respects R
  stop : ∀ stop ∈ r.stop, stop.node.Respects R

/-- The sets on the edges of an automaton do not tell related bytes apart. -/
def Nfa.Respects (R : UInt8 → UInt8 → Prop) (nfa : Nfa) : Prop :=
  ∀ i, ∀ move ∈ (nfa.state i).moves, move.1.Respects R

/-! ### Sets and groups

Sets that respect a relation are closed under the operations on sets, and groups of bytes that are
made of them are not cut by the relation. -/

namespace ByteSet

variable {s t : ByteSet}

theorem Respects.union (hs : s.Respects R) (ht : t.Respects R) : (s.union t).Respects R := by
  intro a b hab
  rw [contains_union, contains_union, hs a b hab, ht a b hab]

theorem Respects.complement (hs : s.Respects R) : s.complement.Respects R := by
  intro a b hab
  rw [contains_complement, contains_complement, hs a b hab]

end ByteSet

/-- **Related bytes belong to one group** of sets that do not tell them apart. -/
theorem ByteGroups.group_eq_of_respects {sets : List ByteSet} (h : ∀ s ∈ sets, s.Respects R)
    {a b : UInt8} (hab : R a b) : (ofSets sets).group a = (ofSets sets).group b :=
  group_eq_iff.2 fun s hs => h s hs a b hab

namespace Nfa

variable {nfa : Nfa}

/-- The sets on the edges are among those of all edges. -/
theorem Respects.of_mem_moveSets (h : nfa.Respects R) {s : ByteSet} (hs : s ∈ nfa.moveSets) :
    s.Respects R := by
  obtain ⟨q, hq, hmem⟩ := List.mem_flatMap.1 hs
  obtain ⟨move, hmove, rfl⟩ := List.mem_map.1 hmem
  obtain ⟨i, hi⟩ := List.mem_iff_getElem?.1 hq
  have hstate : nfa.state i = q := by
    rw [Array.getElem?_toList] at hi
    rw [state, Array.getD_eq_getD_getElem?, hi, Option.getD_some]
  exact h i move (hstate ▸ hmove)

/-! ### Expressions

An expression adds its own sets to the edges. -/

/-- A change of one state is harmless when its new sets are. -/
theorem Respects.modify (h : nfa.Respects R) (i : Nat) {f : State → State}
    (hf : ∀ q : State, (∀ move ∈ q.moves, move.1.Respects R) →
      ∀ move ∈ (f q).moves, move.1.Respects R) :
    (⟨nfa.states.modify i f⟩ : Nfa).Respects R := by
  intro j
  rw [state_modify]
  split
  · exact hf _ (h j)
  · exact h j

theorem respects_empty : Nfa.empty.Respects R := by
  intro i move hmove
  rw [state_of_size_le (Nat.zero_le i)] at hmove
  cases hmove

/-- A new state has no edges. -/
theorem Respects.addState (h : nfa.Respects R) : nfa.addState.1.Respects R := by
  intro i
  rw [state_addState]
  exact h i

/-- A silent edge has no set. -/
theorem Respects.addSilent (h : nfa.Respects R) (i j : Nat) : (nfa.addSilent i j).Respects R :=
  h.modify i fun _ hq => hq

theorem Respects.setAccept (h : nfa.Respects R) (i : Nat) (a : Accept) :
    (nfa.setAccept i a).Respects R :=
  h.modify i fun _ hq => hq

/-- An edge with bytes has a set that respects the relation. -/
theorem Respects.addMove (h : nfa.Respects R) (i : Nat) {s : ByteSet} (hs : s.Respects R)
    (j : Nat) : (nfa.addMove i s j).Respects R :=
  h.modify i fun _ hq => List.forall_mem_append.2 ⟨hq, List.forall_mem_singleton.2 hs⟩

/-- The part of the empty expression has no sets. -/
theorem Respects.addEmpty (h : nfa.Respects R) : nfa.addEmpty.1.Respects R :=
  h.addState.addState.addSilent _ _

/-- The part of a set has this one. -/
theorem Respects.addSet (h : nfa.Respects R) {s : ByteSet} (hs : s.Respects R) :
    (nfa.addSet s).1.Respects R :=
  h.addState.addState.addMove _ hs _

section Repetitions

variable {add : Nfa → Nfa × Fragment} (hadd : ∀ nfa, nfa.Respects R → (add nfa).1.Respects R)

include hadd

/-- Copies have the sets of the item, again and again. -/
theorem Respects.addCopies (h : nfa.Respects R) (n last : Nat) :
    (addCopies add n nfa last).1.Respects R := by
  induction n generalizing nfa last with
  | zero => exact h
  | succ n ih => exact ih ((hadd nfa h).addSilent _ _) _

theorem Respects.addOptionalCopies (h : nfa.Respects R) (stop n last : Nat) :
    (addOptionalCopies add stop n nfa last).1.Respects R := by
  induction n generalizing nfa last with
  | zero => exact h
  | succ n ih => exact ih (((hadd nfa h).addSilent _ _).addSilent _ _) _

/-- A repetition is made of both kinds of copies. -/
theorem Respects.addRepeated (h : nfa.Respects R) (min : Nat) (max : Option Nat) :
    (addRepeated add min max nfa).1.Respects R := by
  have hcopies := (h.addState.addCopies hadd min nfa.size).addState
  cases max with
  | none =>
    have hcopy := hadd _ hcopies.addState
    exact (((hcopy.addSilent _ _).addSilent _ _).addSilent _ _).addSilent _ _
  | some max => exact (hcopies.addOptionalCopies hadd _ _ _).addSilent _ _

end Repetitions

section Lists

variable {items : List Node}
  (hitems : ∀ item ∈ items, ∀ {nfa : Nfa}, nfa.Respects R → (addNode item nfa).1.Respects R)

include hitems

/-- A row has the sets of its items. -/
theorem Respects.addBehind (h : nfa.Respects R) (f : Fragment) :
    (addBehind items f nfa).1.Respects R := by
  induction items generalizing nfa f with
  | nil => exact h
  | cons item items ih =>
    obtain ⟨hitem, hitems⟩ := List.forall_mem_cons.1 hitems
    exact ih hitems ((hitem h).addSilent _ _) _

theorem Respects.addChoices (h : nfa.Respects R) (around : Fragment) :
    (addChoices items around nfa).Respects R := by
  induction items generalizing nfa around with
  | nil => exact h
  | cons item items ih =>
    obtain ⟨hitem, hitems⟩ := List.forall_mem_cons.1 hitems
    exact ih hitems (((hitem h).addSilent _ _).addSilent _ _) _

end Lists

/-- **The part of an expression respects the relation** when the expression does. -/
theorem Respects.addNode {node : Node} (hnode : node.Respects R) (h : nfa.Respects R) :
    (addNode node nfa).1.Respects R := by
  induction hnode generalizing nfa with
  | empty => exact h.addEmpty
  | set hs => exact h.addSet hs
  | @concat items _ ih =>
    cases items with
    | nil => exact h.addEmpty
    | cons item items =>
      obtain ⟨hitem, hitems⟩ := List.forall_mem_cons.1 ih
      exact (hitem h).addBehind hitems _
  | alt _ ih => exact h.addState.addState.addChoices ih _
  | repeated _ ih => exact h.addRepeated (fun _ => ih) _ _

end Nfa

/-! ### First occurrences

The edges of the search are unions of groups of the end pattern, and no group is cut by a relation
that all sets of the end pattern respect. -/

namespace UntilSearch

variable {sub : Nfa}

/-- An edge that is found again gets more bytes. -/
theorem respects_addTarget {target : StateSet} {bytes : ByteSet} {found : List (StateSet × ByteSet)}
    (hbytes : bytes.Respects R) (hfound : ∀ e ∈ found, e.2.Respects R) :
    ∀ e ∈ addTarget target bytes found, e.2.Respects R := by
  induction found with
  | nil => exact List.forall_mem_singleton.2 hbytes
  | cons e found ih =>
    obtain ⟨he, hrest⟩ := List.forall_mem_cons.1 hfound
    unfold addTarget
    split
    · exact List.forall_mem_cons.2 ⟨he.union hbytes, hrest⟩
    · split
      · exact List.forall_mem_cons.2 ⟨hbytes, hfound⟩
      · exact List.forall_mem_cons.2 ⟨he, ih hrest⟩

theorem respects_groupsOf (hsub : sub.Respects R) : ∀ p ∈ groupsOf sub, p.1.Respects R := by
  intro p hp a b hab
  have hgroup := ByteGroups.group_eq_of_respects (fun _ => hsub.of_mem_moveSets) hab
  rw [Bool.eq_iff_iff, ByteGroups.contains_iff_of_mem_zip hp, ByteGroups.contains_iff_of_mem_zip hp,
    hgroup]

theorem respects_edges (hsub : sub.Respects R) (entry s : StateSet) :
    ∀ e ∈ edges sub entry (groupsOf sub) s, e.2.Respects R :=
  List.foldlRecOn (groupsOf sub) _ (motive := fun found : List (StateSet × ByteSet) =>
    ∀ e ∈ found, e.2.Respects R) (by simp) fun _ hfound p hp =>
      respects_addTarget (respects_groupsOf hsub p hp) hfound

theorem respects_addEdge {search : UntilSearch} (h : search.nfa.Respects R) (source : Nat)
    {edge : StateSet × ByteSet} (hedge : edge.2.Respects R) :
    (addEdge source search edge).nfa.Respects R := by
  unfold addEdge
  split
  · exact h.addMove source hedge _
  · exact h.addState.addMove source hedge _

/-- The rounds of the search add such edges only. -/
theorem respects_run (hsub : sub.Respects R) (entry : StateSet) (complete exit bound : Nat)
    {search : UntilSearch} (h : search.nfa.Respects R) :
    (run sub entry complete (groupsOf sub) exit bound search).Respects R := by
  induction bound generalizing search with
  | zero => exact h
  | succ bound ih =>
    unfold run
    split
    · exact h
    · next s i waiting _ =>
      dsimp only
      split
      · exact ih (h.addSilent i exit)
      · exact ih (List.foldlRecOn (edges sub entry (groupsOf sub) s) _
          (motive := fun search : UntilSearch => search.nfa.Respects R) h fun _ hsearch e he =>
            respects_addEdge hsearch i (respects_edges hsub entry s e he))

end UntilSearch

namespace Nfa

variable {nfa : Nfa}

/-- **The part of a first occurrence respects the relation** when the expression does. -/
theorem Respects.addUntil (h : nfa.Respects R) {node : Node} (hnode : node.Respects R) :
    (nfa.addUntil node).1.Respects R :=
  UntilSearch.respects_run (respects_empty.addNode hnode) _ _ _ _ h.addState.addState

/-! ### Rules

Rules are added one behind the other, each with the sets of its patterns. -/

/-- The body of a rule is an expression, perhaps with the search for its end behind it. -/
theorem Respects.addRuleBody (h : nfa.Respects R) {r : ResolvedRule} (hr : r.Respects R) :
    (nfa.addRuleBody r).1.Respects R := by
  have hstart := h.addNode hr.start
  unfold Nfa.addRuleBody
  dsimp only
  split
  · exact hstart
  · next stop hstop => exact (hstart.addUntil (hr.stop stop hstop)).addSilent _ _

/-- The edges from the start states are silent. -/
theorem Respects.enter (h : nfa.Respects R) (f : Fragment) (anchored : Bool) (state : Nat) :
    (enter f anchored nfa state).Respects R := by
  cases anchored with
  | true => exact h.addSilent _ _
  | false => exact (h.addSilent _ _).addSilent _ _

/-- One rule adds its body, its mark and the edges to it. -/
theorem Respects.addRule (h : nfa.Respects R) (id : Nat) {r : ResolvedRule} (hr : r.Respects R) :
    (nfa.addRule id r).Respects R :=
  List.foldlRecOn r.states _ (motive := Nfa.Respects R) ((h.addRuleBody hr).setAccept _ _)
    fun _ hnfa state _ => hnfa.enter _ _ state

/-- All rules, one after the other. -/
theorem Respects.addRules (h : nfa.Respects R) (id : Nat) {rules : List ResolvedRule}
    (hrules : ∀ r ∈ rules, r.Respects R) : (nfa.addRules id rules).Respects R := by
  induction rules generalizing nfa id with
  | nil => exact h
  | cons r rules ih =>
    obtain ⟨hr, hrules⟩ := List.forall_mem_cons.1 hrules
    exact ih (h.addRule id hr) (id + 1) hrules

/-- **The automaton of rules respects the relation** when their patterns do. -/
theorem respects_ofRules (count : Nat) {rules : List ResolvedRule}
    (hrules : ∀ r ∈ rules, r.Respects R) : (ofRules count rules).Respects R := by
  have hstates : (ofStates count).Respects R := by
    intro i move hmove
    rw [state_ofStates] at hmove
    cases hmove
  exact hstates.addRules 0 hrules

end Nfa

end FrontEnd
