import FrontEnd.Nfa.Thompson
import FrontEnd.Proofs.Nfa.Path
import FrontEnd.Proofs.Regex.Language

/-!
# Parts of an automaton

An automaton grows part by part, and each part is left through one state only, its exit.  So what a
part matches does not depend on what is added behind it: a path that leaves the part arrives at
the exit first, and what it reads up to there is a string of the part.

## Main Definitions

* `Nfa.wordsTo` — the strings that lead from a state to a target which they meet only at their end
* `Nfa.IsPart` — a region of states with an entry and an exit that matches a language
* `Nfa.Built`, `Nfa.Adds` — a part that has just been built, and a construction that adds one

## Main Statements

* `Nfa.IsPart.congr` — a part stays one when its exit or states outside of it change
* `Nfa.IsPart.wordsTo_start` — a path out of a part is a string of the part and a path from the exit
* `Nfa.Built.extend` — two parts, one behind the other, are a part for the product

## Design Notes

The strings from a state to a target are counted up to their first arrival only.  This makes them
independent of the edges that the target gets later, and lets two parts be joined by one silent edge
without a case for paths that come back.
-/

namespace FrontEnd

namespace Nfa

/-- A path to `stop` that meets it only at its end. -/
inductive Spells (nfa : Nfa) (stop : Nat) : Nat → List UInt8 → Prop
  | arrived : Spells nfa stop stop []
  | silent {i j : Nat} {w : List UInt8} :
    i ≠ stop → j ∈ (nfa.state i).silent → Spells nfa stop j w → Spells nfa stop i w
  | move {i j : Nat} {b : UInt8} {w : List UInt8} {s : ByteSet} :
    i ≠ stop → (s, j) ∈ (nfa.state i).moves → s.contains b = true → Spells nfa stop j w →
      Spells nfa stop i (b :: w)

/-- The strings that lead from a state to `stop` and meet it only at their end. -/
def wordsTo (nfa : Nfa) (stop i : Nat) : Language UInt8 := {w | nfa.Spells stop i w}

/-- No edge leaves the region from another state than `exit`. -/
def LeftBy (nfa : Nfa) (region : Set Nat) (exit : Nat) : Prop :=
  ∀ i ∈ region, i ≠ exit → ∀ j ∈ (nfa.state i).targets, j ∈ region

/-- A region of states that is left by the exit only, and that matches a language between the
entry and the exit. -/
structure IsPart (nfa : Nfa) (region : Set Nat) (f : Fragment) (l : Language UInt8) : Prop where
  start_mem : f.start ∈ region
  stop_mem : f.stop ∈ region
  leftBy : nfa.LeftBy region f.stop
  wordsTo_eq : nfa.wordsTo f.stop f.start = l

/-- A part that has just been built from the states with the numbers from `first` on: nothing is
behind its exit, and nothing is accepted in it. -/
structure Built (first : Nat) (nfa : Nfa) (f : Fragment) (l : Language UInt8) : Prop where
  isPart : nfa.IsPart (Set.Ico first nfa.size) f l
  stop_bare : nfa.state f.stop = State.bare
  accept_eq_none : ∀ i, first ≤ i → (nfa.state i).accept = none

/-- The states with the numbers below `first` are the same in both automata. -/
structure Keeps (first : Nat) (nfa nfa' : Nfa) : Prop where
  size_le : nfa.size ≤ nfa'.size
  state_eq : ∀ i < first, nfa'.state i = nfa.state i

/-- A construction adds a part behind all states of the automaton, which it keeps. -/
structure Adds (nfa : Nfa) (result : Nfa × Fragment) (l : Language UInt8) : Prop where
  keeps : Keeps nfa.size nfa result.1
  built : Built nfa.size result.1 result.2 l

variable {nfa nfa' : Nfa} {region : Set Nat} {f : Fragment} {l m : Language UInt8}

/-- Membership is spelling. -/
theorem mem_wordsTo {stop i : Nat} {w : List UInt8} :
    w ∈ nfa.wordsTo stop i ↔ nfa.Spells stop i w := Iff.rfl

/-! ### Strings to a target

The strings from a state are found by one look at its edges, and only the target itself is not
looked into.  In a region that is left by its exit alone, they depend on the states of the region
without the exit. -/

/-- From the target itself only the empty string is counted. -/
@[simp] theorem wordsTo_self {stop : Nat} : nfa.wordsTo stop stop = 1 := by
  ext w
  rw [mem_wordsTo, Language.mem_one]
  constructor
  · intro h
    cases h with
    | arrived => rfl
    | silent hne => exact absurd rfl hne
    | move hne => exact absurd rfl hne
  · rintro rfl
    exact .arrived

/-- From a state with silent edges only, the strings are those from their targets. -/
theorem mem_wordsTo_of_moves_nil {stop i : Nat} {w : List UInt8} (hne : i ≠ stop)
    (hmoves : (nfa.state i).moves = []) :
    w ∈ nfa.wordsTo stop i ↔ ∃ j ∈ (nfa.state i).silent, w ∈ nfa.wordsTo stop j := by
  constructor
  · intro h
    cases h with
    | arrived => exact absurd rfl hne
    | silent _ hj hw => exact ⟨_, hj, hw⟩
    | move _ hj => simp [hmoves] at hj
  · rintro ⟨j, hj, hw⟩
    exact .silent hne hj hw

theorem wordsTo_of_silent_singleton {stop i j : Nat} (hne : i ≠ stop)
    (hmoves : (nfa.state i).moves = []) (hsilent : (nfa.state i).silent = [j]) :
    nfa.wordsTo stop i = nfa.wordsTo stop j := by
  ext w
  simp [mem_wordsTo_of_moves_nil hne hmoves, hsilent]

/-- Two silent edges hand on the strings of both targets. -/
theorem wordsTo_of_silent_pair {stop i j k : Nat} (hne : i ≠ stop)
    (hmoves : (nfa.state i).moves = []) (hsilent : (nfa.state i).silent = [j, k]) :
    nfa.wordsTo stop i = nfa.wordsTo stop j + nfa.wordsTo stop k := by
  ext w
  simp [mem_wordsTo_of_moves_nil hne hmoves, hsilent, Language.mem_add]

/-- From a state with moves only, the first byte is read on one of them. -/
theorem mem_wordsTo_of_silent_nil {stop i : Nat} {w : List UInt8} (hne : i ≠ stop)
    (hsilent : (nfa.state i).silent = []) :
    w ∈ nfa.wordsTo stop i ↔ ∃ s j b v, (s, j) ∈ (nfa.state i).moves ∧ s.contains b = true ∧
      v ∈ nfa.wordsTo stop j ∧ w = b :: v := by
  constructor
  · intro h
    cases h with
    | arrived => exact absurd rfl hne
    | silent _ hj => simp [hsilent] at hj
    | move _ hj hb hw => exact ⟨_, _, _, _, hj, hb, hw, rfl⟩
  · rintro ⟨s, j, b, v, hj, hb, hv, rfl⟩
    exact .move hne hj hb hv

/-- A string to the exit is spelled in the same way by another automaton whose states agree on the
region.  The induction follows the edges; each of them stays in the region as long as the exit has
not been reached. -/
theorem Spells.congr {stop i : Nat} {w : List UInt8} (hleft : nfa.LeftBy region stop)
    (heq : ∀ i ∈ region, i ≠ stop → nfa'.state i = nfa.state i) (hi : i ∈ region)
    (h : nfa.Spells stop i w) : nfa'.Spells stop i w := by
  induction h with
  | arrived => exact .arrived
  | silent hne hj _ ih =>
    have hmem := hleft _ hi hne _ (State.mem_targets_of_silent hj)
    exact .silent hne (by rwa [heq _ hi hne]) (ih hmem)
  | move hne hj hb _ ih =>
    have hmem := hleft _ hi hne _ (State.mem_targets_of_move hj)
    exact .move hne (by rwa [heq _ hi hne]) hb (ih hmem)

/-- Whether a region is left by its exit only is seen from its states without the exit. -/
theorem LeftBy.congr {exit : Nat} (h : nfa.LeftBy region exit)
    (heq : ∀ i ∈ region, i ≠ exit → nfa'.state i = nfa.state i) : nfa'.LeftBy region exit := by
  intro i hi hne
  rw [heq i hi hne]
  exact h i hi hne

/-- The strings to the exit of a region depend on the states of the region only. -/
theorem wordsTo_congr {stop i : Nat} (hleft : nfa.LeftBy region stop)
    (heq : ∀ i ∈ region, i ≠ stop → nfa'.state i = nfa.state i) (hi : i ∈ region) :
    nfa'.wordsTo stop i = nfa.wordsTo stop i := by
  ext w
  exact ⟨Spells.congr (hleft.congr heq) (fun i hi hne => (heq i hi hne).symm) hi,
    Spells.congr hleft heq hi⟩

/-- **A region is left by its exit.**  What leads from inside of a region to a target outside is a
string to the exit and a string from there. -/
theorem wordsTo_eq_mul {exit target i : Nat} (hleft : nfa.LeftBy region exit)
    (htarget : target ∉ region) (hi : i ∈ region) :
    nfa.wordsTo target i = nfa.wordsTo exit i * nfa.wordsTo target exit := by
  ext w
  rw [Language.mem_mul]
  constructor
  · -- the string is cut where the way meets the exit for the first time
    intro h
    rw [mem_wordsTo] at h
    induction h with
    | arrived => exact absurd hi htarget
    | @silent i j w hne hj hw ih =>
      by_cases hexit : i = exit
      · subst hexit
        exact ⟨[], .arrived, w, .silent hne hj hw, rfl⟩
      · obtain ⟨u, hu, v, hv, rfl⟩ := ih (hleft i hi hexit j (State.mem_targets_of_silent hj))
        exact ⟨u, .silent hexit hj hu, v, hv, rfl⟩
    | @move i j b w s hne hj hb hw ih =>
      by_cases hexit : i = exit
      · subst hexit
        exact ⟨[], .arrived, b :: w, .move hne hj hb hw, rfl⟩
      · obtain ⟨u, hu, v, hv, rfl⟩ := ih (hleft i hi hexit j (State.mem_targets_of_move hj))
        exact ⟨b :: u, .move hexit hj hb hu, v, hv, rfl⟩
  · rintro ⟨u, hu, v, hv, rfl⟩
    rw [mem_wordsTo] at hu
    induction hu with
    | arrived => exact hv
    | silent hne hj _ ih =>
      have hmem := hleft _ hi hne _ (State.mem_targets_of_silent hj)
      exact .silent (fun h => htarget (h ▸ hi)) hj (ih hmem)
    | move hne hj hb _ ih =>
      have hmem := hleft _ hi hne _ (State.mem_targets_of_move hj)
      exact .move (fun h => htarget (h ▸ hi)) hj hb (ih hmem)

/-- A path to a state without edges arrives there at its end only. -/
theorem path_iff_mem_wordsTo {stop i : Nat} {w : List UInt8}
    (hstop : (nfa.state stop).targets = []) :
    nfa.Path i w stop ↔ w ∈ nfa.wordsTo stop i := by
  have noEdge : ∀ j, j ∉ (nfa.state stop).targets := by simp [hstop]
  constructor
  · intro h
    generalize hk : stop = k at h
    induction h with
    | refl => exact hk ▸ .arrived
    | @silent i j k w hj _ ih =>
      have hne : i ≠ stop := by
        rintro rfl
        exact noEdge j (State.mem_targets_of_silent hj)
      exact hk ▸ .silent hne hj (hk ▸ ih hk)
    | @move i j k b w s hj hb _ ih =>
      have hne : i ≠ stop := by
        rintro rfl
        exact noEdge j (State.mem_targets_of_move hj)
      exact hk ▸ .move hne hj hb (hk ▸ ih hk)
  · intro h
    induction h with
    | arrived => exact .refl stop
    | silent _ hj _ ih => exact .silent hj ih
    | move _ hj hb _ ih => exact .move hj hb ih

/-! ### Parts

A part is known by its region, its entry, its exit and its language.  One that has just been built
is the end of the automaton, and its exit has no edges yet. -/

/-- A part stays one when its exit or states outside of it change. -/
theorem IsPart.congr (h : nfa.IsPart region f l)
    (heq : ∀ i ∈ region, i ≠ f.stop → nfa'.state i = nfa.state i) : nfa'.IsPart region f l :=
  ⟨h.start_mem, h.stop_mem, h.leftBy.congr heq,
    (wordsTo_congr h.leftBy heq h.start_mem).trans h.wordsTo_eq⟩

/-- What leads from the entry of a part to a target outside is a string of the part and a string
from the exit. -/
theorem IsPart.wordsTo_start {target : Nat} (h : nfa.IsPart region f l)
    (htarget : target ∉ region) :
    nfa.wordsTo target f.start = l * nfa.wordsTo target f.stop := by
  rw [wordsTo_eq_mul h.leftBy htarget h.start_mem, h.wordsTo_eq]

theorem Keeps.refl (nfa : Nfa) (first : Nat) : Keeps first nfa nfa := ⟨le_rfl, fun _ _ => rfl⟩

theorem Keeps.trans {first : Nat} {nfa'' : Nfa} (h : Keeps first nfa nfa')
    (h' : Keeps first nfa' nfa'') : Keeps first nfa nfa'' :=
  ⟨h.size_le.trans h'.size_le, fun i hi => (h'.state_eq i hi).trans (h.state_eq i hi)⟩

/-- The entry of what has been built is a new state. -/
theorem Built.first_le_start {first : Nat} (h : Built first nfa f l) : first ≤ f.start :=
  h.isPart.start_mem.1

/-- The entry of what has been built is a state of the automaton. -/
theorem Built.start_lt {first : Nat} (h : Built first nfa f l) : f.start < nfa.size :=
  h.isPart.start_mem.2

/-- The exit of what has been built is a new state. -/
theorem Built.first_le_stop {first : Nat} (h : Built first nfa f l) : first ≤ f.stop :=
  h.isPart.stop_mem.1

/-- The exit of what has been built is a state of the automaton. -/
theorem Built.stop_lt {first : Nat} (h : Built first nfa f l) : f.stop < nfa.size :=
  h.isPart.stop_mem.2

/-- No edge leaves the exit of a part that has just been built. -/
theorem Built.targets_stop {first : Nat} (h : Built first nfa f l) :
    (nfa.state f.stop).targets = [] := by
  rw [h.stop_bare]
  rfl

/-- No edge leads out of a part behind whose exit there is nothing. -/
theorem Built.closed {first : Nat} (h : Built first nfa f l) :
    nfa.Closed (Set.Ico first nfa.size) := by
  intro i hi j hj
  by_cases hstop : i = f.stop
  · rw [hstop, h.targets_stop] at hj
    cases hj
  · exact h.isPart.leftBy i hi hstop j hj

/-! ### Going on behind an exit

The exit of a part is given edges to what is built behind it.  By then the strings to the exit are
settled, so the strings of both together are a product. -/

/-- The automaton has grown behind the state `last`: it and the new states lead to `stop` and match
a language on the way, and nothing else has changed. -/
structure Continues (nfa nfa' : Nfa) (last stop : Nat) (l : Language UInt8) : Prop where
  size_le : nfa.size ≤ nfa'.size
  state_eq : ∀ i < nfa.size, i ≠ last → nfa'.state i = nfa.state i
  targets : ∀ i, i = last ∨ nfa.size ≤ i → i ≠ stop → ∀ j ∈ (nfa'.state i).targets,
    j ∈ Set.Ico nfa.size nfa'.size ∨ j = stop
  accept_eq_none : ∀ i, i = last ∨ nfa.size ≤ i → (nfa'.state i).accept = none
  wordsTo_eq : nfa'.wordsTo stop last = l

/-- **Two parts, one behind the other.**  A part whose exit is continued up to a new state is a part
for the product. -/
theorem Built.extend {first start last stop : Nat} (hf : Built first nfa ⟨start, last⟩ l)
    (hc : Continues nfa nfa' last stop m) (hle : nfa.size ≤ stop) (hlt : stop < nfa'.size)
    (hbare : nfa'.state stop = State.bare) :
    Built first nfa' ⟨start, stop⟩ (l * m) ∧ Keeps first nfa nfa' := by
  have hfirst : first ≤ nfa.size := hf.first_le_stop.trans hf.stop_lt.le
  have hpart : nfa'.IsPart (Set.Ico first nfa.size) ⟨start, last⟩ l :=
    hf.isPart.congr fun i hi hne => hc.state_eq i hi.2 hne
  refine ⟨⟨⟨⟨hf.first_le_start, lt_of_lt_of_le hf.start_lt hc.size_le⟩, ⟨hfirst.trans hle, hlt⟩,
    ?_, ?_⟩, hbare, ?_⟩, hc.size_le, ?_⟩
  · intro i hi hne j hj
    by_cases h : i = last ∨ nfa.size ≤ i
    · rcases hc.targets i h hne j hj with hmem | rfl
      · exact ⟨hfirst.trans hmem.1, hmem.2⟩
      · exact ⟨hfirst.trans hle, hlt⟩
    · rw [not_or, not_le] at h
      have hmem := hpart.leftBy i ⟨hi.1, h.2⟩ h.1 j hj
      exact ⟨hmem.1, lt_of_lt_of_le hmem.2 hc.size_le⟩
  · have hout : stop ∉ Set.Ico first nfa.size := fun h => absurd h.2 (not_lt.2 hle)
    exact (hpart.wordsTo_start hout).trans (congrArg (l * ·) hc.wordsTo_eq)
  · intro i hi
    by_cases h : i = last ∨ nfa.size ≤ i
    · exact hc.accept_eq_none i h
    · rw [not_or, not_le] at h
      rw [hc.state_eq i h.2 h.1]
      exact hf.accept_eq_none i hi
  · intro i hi
    have hne : i ≠ last := fun h => absurd hf.first_le_stop (by simp only; omega)
    exact hc.state_eq i (lt_of_lt_of_le hi hfirst) hne

/-- A silent edge to the entry of a part that has been added continues a state without edges. -/
theorem Adds.continues {last : Nat} {g : Fragment} (hg : Adds nfa (nfa', g) l)
    (hlast : last < nfa.size) (hbare : nfa.state last = State.bare) :
    Continues nfa (nfa'.addSilent last g.start) last g.stop l := by
  obtain ⟨hkeeps, hbuilt⟩ := hg
  have hle : nfa.size ≤ nfa'.size := hkeeps.size_le
  have hgstop : nfa.size ≤ g.stop := hbuilt.first_le_stop
  have hne : last ≠ g.stop := fun h => absurd hlast (by omega)
  have hedge : (nfa'.addSilent last g.start).state last =
      { State.bare with silent := [g.start] } := by
    rw [state_addSilent_self (lt_of_lt_of_le hlast hle), hkeeps.state_eq _ hlast, hbare]
    rfl
  have hpart : (nfa'.addSilent last g.start).IsPart (Set.Ico nfa.size nfa'.size) g l :=
    hbuilt.isPart.congr fun i hi _ =>
      state_addSilent_of_ne fun h => absurd hlast (by have := hi.1; omega)
  refine ⟨by simpa using hle, fun i hi hne => ?_, fun i hi hne' j hj => ?_, fun i hi => ?_, ?_⟩
  · rw [state_addSilent_of_ne hne, hkeeps.state_eq i hi]
  · rw [size_addSilent]
    by_cases h : i = last
    · rw [h, hedge] at hj
      obtain rfl : j = g.start := by simpa [State.targets, State.bare] using hj
      exact .inl hpart.start_mem
    · by_cases hlt : i < nfa'.size
      · exact .inl (hpart.leftBy i ⟨hi.resolve_left h, hlt⟩ hne' j hj)
      · rw [state_addSilent_of_ne h, state_of_size_le (not_lt.1 hlt)] at hj
        simp at hj
  · by_cases h : i = last
    · rw [h, hedge]
      rfl
    · rw [state_addSilent_of_ne h]
      exact hbuilt.accept_eq_none i (hi.resolve_left h)
  · rw [wordsTo_of_silent_singleton hne (by rw [hedge]; rfl) (by rw [hedge]), hpart.wordsTo_eq]

/-- A part and a part that is added behind it, joined by a silent edge, are a part for the
product. -/
theorem Built.join {first : Nat} {g : Fragment} (hf : Built first nfa f l)
    (hg : Adds nfa (nfa', g) m) :
    Built first (nfa'.addSilent f.stop g.start) ⟨f.start, g.stop⟩ (l * m) ∧
      Keeps first nfa (nfa'.addSilent f.stop g.start) := by
  have hne : g.stop ≠ f.stop := fun h => absurd hg.built.first_le_stop (by
    have := hf.stop_lt
    simp only
    omega)
  refine hf.extend (hg.continues hf.stop_lt hf.stop_bare) hg.built.first_le_stop ?_ ?_
  · simpa using hg.built.stop_lt
  · rw [state_addSilent_of_ne hne]
    exact hg.built.stop_bare

end Nfa

end FrontEnd
