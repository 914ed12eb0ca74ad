import FrontEnd.Proofs.Dfa
import Mathlib.Data.List.ReduceOption

/-!
# Reached states

The construction of a deterministic automaton starts with the sets of the start states and adds what
is behind a byte, so each of its states is reached from an entry, over some string.

## Main Definitions

* `Dfa.Subsets.All` — a property of all sets that have been met

## Main Statements

* `Dfa.Subsets.All.rows` — a property that holds behind each byte holds for all sets
* `Dfa.exists_run_of_mem_acceptedRules` — a rule that stands in the tables is accepted by a set that
  some string leads to

## Design Notes

A property that the start sets have, and that each move keeps, holds of all sets that are met.  That
a set is behind some string is such a property, so a rule in the tables is accepted behind a string.
-/

namespace FrontEnd

namespace Dfa

/-- The sets that have been met have a property. -/
def Subsets.All (p : StateSet → Prop) (subsets : Subsets) : Prop := ∀ s ∈ subsets.found, p s

section All

variable {p : StateSet → Prop} {subsets : Subsets} {nfa : Nfa}

/-- A new set that has the property may be numbered. -/
theorem Subsets.All.number (h : subsets.All p) {s : StateSet} (hs : p s) :
    (subsets.number s).1.All p := by
  unfold Subsets.number
  split
  · exact h
  · intro t ht
    rcases Array.mem_push.1 ht with ht | rfl
    · exact h t ht
    · exact hs

/-- Several sets may be entered when each of them may. -/
theorem Subsets.All.numberAll (h : subsets.All p) {sets : List StateSet} (hsets : ∀ s ∈ sets, p s) :
    (numberAll subsets sets).1.All p := by
  induction sets generalizing subsets with
  | nil => exact h
  | cons s sets ih =>
    rw [List.forall_mem_cons] at hsets
    unfold Dfa.numberAll
    split
    · exact ih h hsets.2
    · exact ih (h.number hsets.1) hsets.2

/-- **A property that holds behind each byte holds for all sets.** -/
theorem Subsets.All.rows (hstep : ∀ s b, p s → p (nfa.step s b)) (h : subsets.All p)
    (representatives : List UInt8) (bound current : Nat) (table : Array (List (Option Nat))) :
    (rows nfa representatives bound current subsets table).1.All p := by
  induction bound generalizing current subsets table with
  | zero => exact h
  | succ bound ih =>
    unfold Dfa.rows
    split
    · exact h
    · next s hs =>
      refine ih (h.numberAll fun t ht => ?_) _ _
      obtain ⟨b, -, rfl⟩ := List.mem_map.1 ht
      exact hstep s b (h s (Array.mem_of_getElem? hs))

end All

section Build

variable {nfa : Nfa} {starts : List Nat} {rule : Nat}

/-- The rules that some state accepts, anywhere or at the ends of lines only. -/
theorem mem_acceptedRules_iff {dfa : Dfa} :
    rule ∈ dfa.acceptedRules ↔ some rule ∈ dfa.accept ∨ some rule ∈ dfa.lineEndAccept := by
  simp [acceptedRules, List.mem_eraseDups, List.reduceOption_mem_iff]

/-- All sets that the construction meets are reached from a start state, over some string. -/
theorem all_reached_build (groups : ByteGroups) :
    Subsets.All (fun s => ∃ start ∈ starts, ∃ w, s = nfa.run start w)
      (rows nfa groups.representatives (1 <<< nfa.size) 0
        (numberAll Subsets.empty (starts.map fun start => nfa.closure [start])).1 #[]).1 := by
  have hempty : Subsets.All (fun s => ∃ start ∈ starts, ∃ w, s = nfa.run start w)
      Subsets.empty := by
    simp [Subsets.All, Subsets.empty]
  have hclosures : ∀ s ∈ starts.map fun start => nfa.closure [start],
      ∃ start ∈ starts, ∃ w, s = nfa.run start w := by
    intro s hs
    obtain ⟨start, hstart, rfl⟩ := List.mem_map.1 hs
    exact ⟨start, hstart, [], rfl⟩
  refine (hempty.numberAll hclosures).rows ?_ _ _ _ _
  rintro _ b ⟨start, hstart, w, rfl⟩
  exact ⟨start, hstart, w ++ [b], by rw [Nfa.run, Nfa.run, List.foldl_append]; rfl⟩

/-- **A rule that stands in the tables is accepted** by a set that some string leads to. -/
theorem exists_run_of_mem_acceptedRules (groups : ByteGroups)
    (h : rule ∈ (build nfa groups starts).acceptedRules) :
    ∃ start ∈ starts, ∃ w, (accepts nfa (nfa.run start w)).1 = some rule ∨
      (accepts nfa (nfa.run start w)).2 = some rule := by
  have hentry : ∀ side : Option Nat × Option Nat → Option Nat,
      some rule ∈ ((rows nfa groups.representatives (1 <<< nfa.size) 0
        (numberAll Subsets.empty (starts.map fun start => nfa.closure [start])).1
          #[]).1.found.map (accepts nfa)).map side →
        ∃ start ∈ starts, ∃ w, side (accepts nfa (nfa.run start w)) = some rule := by
    intro side h
    obtain ⟨_, hpair, hrule⟩ := Array.mem_map.1 h
    obtain ⟨s, hs, rfl⟩ := Array.mem_map.1 hpair
    obtain ⟨start, hstart, w, rfl⟩ := all_reached_build groups s hs
    exact ⟨start, hstart, w, hrule⟩
  rcases mem_acceptedRules_iff.1 h with h | h
  · obtain ⟨start, hstart, w, hrule⟩ := hentry Prod.fst h
    exact ⟨start, hstart, w, .inl hrule⟩
  · obtain ⟨start, hstart, w, hrule⟩ := hentry Prod.snd h
    exact ⟨start, hstart, w, .inr hrule⟩

end Build

end Dfa

end FrontEnd
