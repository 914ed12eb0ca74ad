import FrontEnd.Proofs.Nfa.Part

/-!
# The automaton of an expression matches its language

The construction follows the tree, and so does the proof: every case adds a part for the language
of its expression, given that the same holds for the items.  Rows of parts are joined one by one.
A choice and a repetition are parts of another shape, around the parts of their items.

## Main Statements

* `Nfa.adds_addNode` — adding an expression adds a part for its language

## Design Notes

An item of a repetition is only known by the fact that adding it, to any automaton, adds a part for
its language.  So copies of it can be put in a row by induction on their number, and the same lemmas
serve every expression inside a repetition.

A choice has several paths between the same two states, and a loop comes back to its hub.  Both are
described by what they add behind an exit that is still bare: the strings from there to the new
exit.
-/

namespace FrontEnd

namespace Nfa

open scoped Computability

variable {nfa : Nfa} {l m : Language UInt8}

/-! ### Single parts

Two states with one edge between them, for the empty string and for a set of bytes. -/

/-- Two new states, of which the first one leads to the second one, are a part. -/
theorem adds_pair {nfa' : Nfa} (hsize : nfa'.size = nfa.size + 2)
    (hother : ∀ i, i ≠ nfa.size → nfa'.state i = nfa.state i)
    (htargets : (nfa'.state nfa.size).targets = [nfa.size + 1])
    (haccept : (nfa'.state nfa.size).accept = none)
    (hwords : nfa'.wordsTo (nfa.size + 1) nfa.size = l) :
    Adds nfa (nfa', ⟨nfa.size, nfa.size + 1⟩) l := by
  refine ⟨⟨by simp only; omega, fun i hi => hother i (by omega)⟩,
    ⟨⟨by simp [hsize], by simp [hsize], ?_, hwords⟩, ?_, ?_⟩⟩
  · intro i hi hne j hj
    simp only [hsize, Set.mem_Ico] at hi hne ⊢
    obtain rfl : i = nfa.size := by omega
    rw [htargets, List.mem_singleton] at hj
    omega
  · rw [hother _ (by simp), state_of_size_le (by simp)]
  · intro i hi
    by_cases h : i = nfa.size
    · rw [h, haccept]
    · rw [hother i h, state_of_size_le hi]
      rfl

/-- The two states with a silent edge, written out. -/
theorem addEmpty_eq (nfa : Nfa) : nfa.addEmpty =
    (nfa.addState.1.addState.1.addSilent nfa.size (nfa.size + 1), ⟨nfa.size, nfa.size + 1⟩) := by
  rw [← size_addState]
  rfl

/-- The two states with an edge for the set, written out. -/
theorem addSet_eq (nfa : Nfa) (s : ByteSet) : nfa.addSet s =
    (nfa.addState.1.addState.1.addMove nfa.size s (nfa.size + 1), ⟨nfa.size, nfa.size + 1⟩) := by
  rw [← size_addState]
  rfl

/-- The empty expression adds a part for the empty string. -/
theorem adds_addEmpty (nfa : Nfa) : Adds nfa nfa.addEmpty 1 := by
  rw [addEmpty_eq]
  have hstart : (nfa.addState.1.addState.1.addSilent nfa.size (nfa.size + 1)).state nfa.size =
      { State.bare with silent := [nfa.size + 1] } := by
    rw [state_addSilent_self (by rw [size_addState, size_addState]; omega)]
    simp [state_of_size_le, State.bare]
  refine adds_pair (by simp) (fun i hi => ?_) (by rw [hstart]; rfl) (by rw [hstart]; rfl) ?_
  · simp [state_addSilent_of_ne, hi]
  · rw [wordsTo_of_silent_singleton (by simp) (by rw [hstart]; rfl) (by rw [hstart]), wordsTo_self]

/-- A set adds a part for its bytes. -/
theorem adds_addSet (nfa : Nfa) (s : ByteSet) :
    Adds nfa (nfa.addSet s) {w | ∃ b, s.contains b = true ∧ w = [b]} := by
  rw [addSet_eq]
  have hstart : (nfa.addState.1.addState.1.addMove nfa.size s (nfa.size + 1)).state nfa.size =
      { State.bare with moves := [(s, nfa.size + 1)] } := by
    rw [state_addMove_self (by rw [size_addState, size_addState]; omega)]
    simp [state_of_size_le, State.bare]
  refine adds_pair (by simp) (fun i hi => ?_) (by rw [hstart]; rfl) (by rw [hstart]; rfl) ?_
  · simp [state_addMove_of_ne, hi]
  · ext w
    rw [mem_wordsTo_of_silent_nil (by simp) (by rw [hstart]; rfl), hstart]
    constructor
    · rintro ⟨t, j, b, v, hj, hb, hv, rfl⟩
      obtain ⟨rfl, rfl⟩ : t = s ∧ j = nfa.size + 1 := by simpa using hj
      rw [wordsTo_self, Language.mem_one] at hv
      exact ⟨b, hb, by rw [hv]⟩
    · rintro ⟨b, hb, rfl⟩
      exact ⟨s, _, b, [], List.mem_singleton_self _, hb, by simp, rfl⟩

/-! ### Repetitions

First come the copies that are necessary, in a row.  With an upper bound, the remaining copies can
each be left out.  Without one, a hub is entered behind the necessary copies; it leads through one
more copy back to itself, or out. -/

section Repetition

variable {add : Nfa → Nfa × Fragment}

/-- Copies in a row are a part for the power of the language.  The induction is on their number, and
each copy is joined behind the part so far. -/
theorem built_addCopies (hadd : ∀ nfa, Adds nfa (add nfa) l) {first start last : Nat} (n : Nat)
    (h : Built first nfa ⟨start, last⟩ m) :
    Built first (addCopies add n nfa last).1 ⟨start, (addCopies add n nfa last).2⟩ (m * l ^ n) ∧
      Keeps first nfa (addCopies add n nfa last).1 := by
  induction n generalizing nfa last m with
  | zero => exact ⟨by simpa [addCopies] using h, Keeps.refl _ _⟩
  | succ n ih =>
    obtain ⟨hjoin, hkeeps⟩ := h.join (hadd nfa)
    obtain ⟨hbuilt, hkeeps'⟩ := ih hjoin
    rw [mul_assoc, ← pow_succ'] at hbuilt
    exact ⟨hbuilt, hkeeps.trans hkeeps'⟩

/-- A state without edges is continued by the empty string when it gets a silent edge. -/
theorem continues_addSilent {stop last : Nat} (hlast : last < nfa.size) (hne : last ≠ stop)
    (hbare : nfa.state last = State.bare) :
    Continues nfa (nfa.addSilent last stop) last stop 1 := by
  have hstate : (nfa.addSilent last stop).state last = { State.bare with silent := [stop] } := by
    rw [state_addSilent_self hlast, hbare]
    rfl
  refine ⟨by simp, fun i _ hi => state_addSilent_of_ne hi, ?_, ?_, ?_⟩
  · intro i hi _ j hj
    by_cases h : i = last
    · rw [h, hstate] at hj
      exact .inr (by simpa [State.targets, State.bare] using hj)
    · rw [state_addSilent_of_ne h, state_of_size_le (hi.resolve_left h)] at hj
      simp at hj
  · intro i hi
    by_cases h : i = last
    · rw [h, hstate]
      rfl
    · rw [state_addSilent_of_ne h, state_of_size_le (hi.resolve_left h)]
      rfl
  · rw [wordsTo_of_silent_singleton hne (by rw [hstate]; rfl) (by rw [hstate]), wordsTo_self]

/-- A part behind a state without edges, which can also be left out, and what continues the exit of
the part. -/
theorem continues_optional {stop last : Nat} {nfa' final : Nfa} {f : Fragment}
    (hadds : Adds nfa (nfa', f) l) (hstop : stop < nfa.size) (hlast : last < nfa.size)
    (hne : last ≠ stop) (hbare : nfa.state last = State.bare)
    (hrest : Continues ((nfa'.addSilent last f.start).addSilent last stop) final f.stop stop m) :
    Continues nfa final last stop (l * m + 1) := by
  obtain ⟨hkeeps, hbuilt⟩ := hadds
  dsimp only at hkeeps hbuilt
  have hle : nfa.size ≤ nfa'.size := hkeeps.size_le
  have hfstop : nfa.size ≤ f.stop := hbuilt.first_le_stop
  set joined := (nfa'.addSilent last f.start).addSilent last stop with hjoined
  have hsize : joined.size = nfa'.size := by simp [hjoined]
  have hother : ∀ i, i ≠ last → joined.state i = nfa'.state i := fun i hi => by
    rw [hjoined, state_addSilent_of_ne hi, state_addSilent_of_ne hi]
  have hlast' : last < nfa'.size := lt_of_lt_of_le hlast hle
  have hfinal : nfa'.size ≤ final.size := hsize ▸ hrest.size_le
  have hlastFinal : final.state last = { State.bare with silent := [f.start, stop] } := by
    rw [hrest.state_eq last (by omega) (by omega), hjoined,
      state_addSilent_self (by simpa using hlast'), state_addSilent_self hlast',
      hkeeps.state_eq last hlast, hbare]
    rfl
  -- what continues the exit of the part leaves the part as it was
  have hpart : final.IsPart (Set.Ico nfa.size nfa'.size) f l := by
    apply hbuilt.isPart.congr
    intro i hi hi'
    rw [Set.mem_Ico] at hi
    rw [hrest.state_eq i (by omega) hi', hother i (by omega)]
  refine ⟨hle.trans hfinal, ?_, ?_, ?_, ?_⟩
  · intro i hi hi'
    rw [hrest.state_eq i (by omega) (by omega), hother i hi', hkeeps.state_eq i hi]
  · intro i hi hi' j hj
    by_cases h : i = last
    · rw [h, hlastFinal] at hj
      have hcases : j = f.start ∨ j = stop := by simpa [State.targets, State.bare] using hj
      rcases hcases with rfl | rfl
      · exact .inl ⟨hbuilt.first_le_start, lt_of_lt_of_le hbuilt.start_lt hfinal⟩
      · exact .inr rfl
    · by_cases h' : i = f.stop ∨ joined.size ≤ i
      · refine (hrest.targets i h' hi' j hj).imp_left fun hmem => ⟨?_, hmem.2⟩
        have hfirst := hmem.1
        omega
      · rw [not_or, not_le, hsize] at h'
        have hmem := hpart.leftBy i ⟨hi.resolve_left h, h'.2⟩ h'.1 j hj
        exact .inl ⟨hmem.1, lt_of_lt_of_le hmem.2 hfinal⟩
  · intro i hi
    by_cases h : i = last
    · rw [h, hlastFinal]
      rfl
    · by_cases h' : i = f.stop ∨ joined.size ≤ i
      · exact hrest.accept_eq_none i h'
      · rw [not_or, not_le] at h'
        rw [hrest.state_eq i h'.2 h'.1, hother i h]
        exact hbuilt.accept_eq_none i (hi.resolve_left h)
  · have hout : stop ∉ Set.Ico nfa.size nfa'.size := fun h => absurd h.1 (by omega)
    rw [wordsTo_of_silent_pair hne (by rw [hlastFinal]; rfl) (by rw [hlastFinal]), wordsTo_self,
      hpart.wordsTo_start hout, hrest.wordsTo_eq]

/-- Copies that can be left out go on with any number of strings up to theirs.  The exit of each
copy gets two silent edges, into the next copy and out. -/
theorem continues_addOptionalCopies (hadd : ∀ nfa, Adds nfa (add nfa) l) {stop last : Nat}
    (n : Nat) (hstop : stop < nfa.size) (hlast : last < nfa.size) (hne : last ≠ stop)
    (hbare : nfa.state last = State.bare) :
    Continues nfa ((addOptionalCopies add stop n nfa last).1.addSilent
      (addOptionalCopies add stop n nfa last).2 stop) last stop (upTo l n) := by
  induction n generalizing nfa last with
  | zero =>
    rw [upTo_zero]
    exact continues_addSilent hlast hne hbare
  | succ n ih =>
    have hadds := hadd nfa
    rw [addOptionalCopies, upTo_succ, add_comm]
    generalize add nfa = result at hadds ⊢
    obtain ⟨nfa', f⟩ := result
    have hle : nfa.size ≤ nfa'.size := hadds.1.size_le
    have hfstop : nfa.size ≤ f.stop := hadds.2.first_le_stop
    -- the copies that are still missing continue the exit of this one
    refine continues_optional hadds hstop hlast hne hbare (ih ?_ ?_ (by omega) ?_)
    · simpa using lt_of_lt_of_le hstop hle
    · simpa using hadds.2.stop_lt
    · rw [state_addSilent_of_ne (by omega), state_addSilent_of_ne (by omega)]
      exact hadds.2.stop_bare

/-- **Any number of copies.**  From a hub that leads into a part, whose exit leads back to the hub,
the strings to a target are the rows of strings of the part. -/
theorem wordsTo_hub {region : Set Nat} {f : Fragment} {hub stop : Nat}
    (hpart : nfa.IsPart region f l) (hout : stop ∉ region) (hne : hub ≠ stop)
    (hhub : (nfa.state hub).silent = [f.start, stop]) (hmoves : (nfa.state hub).moves = [])
    (hexit : (nfa.state f.stop).silent = [hub]) (hmoves' : (nfa.state f.stop).moves = []) :
    nfa.wordsTo stop hub = l∗ := by
  have hfstop : f.stop ≠ stop := fun h => hout (h ▸ hpart.stop_mem)
  -- Inside of the part, the way to the exit is followed by a row of strings.
  have within : ∀ {i w}, nfa.Spells stop i w → (i = hub → w ∈ l∗) ∧
      (i ∈ region → w ∈ nfa.wordsTo f.stop i * l∗) := by
    intro i w h
    induction h with
    | arrived => exact ⟨fun h => absurd h.symm hne, fun h => absurd h hout⟩
    | @silent i j w _ hj hw ih =>
      constructor
      · rintro rfl
        rw [hhub] at hj
        rcases (by simpa using hj : j = f.start ∨ j = stop) with rfl | rfl
        · have hrow := ih.2 hpart.start_mem
          rw [hpart.wordsTo_eq] at hrow
          rw [← Language.one_add_self_mul_kstar_eq_kstar, Language.mem_add]
          exact .inr hrow
        · rw [← mem_wordsTo, wordsTo_self, Language.mem_one] at hw
          exact hw ▸ Language.nil_mem_kstar l
      · intro hi
        by_cases hif : i = f.stop
        · rw [hif, hexit, List.mem_singleton] at hj
          rw [hif, wordsTo_self, one_mul]
          exact ih.1 hj
        · obtain ⟨u, hu, v, hv, rfl⟩ := Language.mem_mul.1
            (ih.2 (hpart.leftBy i hi hif j (State.mem_targets_of_silent hj)))
          exact Language.append_mem_mul (Spells.silent hif hj hu) hv
    | @move i j b w s _ hj hb hw ih =>
      constructor
      · rintro rfl
        simp [hmoves] at hj
      · intro hi
        by_cases hif : i = f.stop
        · simp [hif, hmoves'] at hj
        · obtain ⟨u, hu, v, hv, rfl⟩ := Language.mem_mul.1
            (ih.2 (hpart.leftBy i hi hif j (State.mem_targets_of_move hj)))
          exact Language.append_mem_mul (a := b :: u) (Spells.move hif hj hb hu) hv
  -- The other way round, a row is spelled by going around again and again.
  have unroll : nfa.wordsTo stop hub = l * nfa.wordsTo stop hub + 1 := by
    conv_lhs => rw [wordsTo_of_silent_pair hne hmoves hhub, hpart.wordsTo_start hout,
      wordsTo_of_silent_singleton hfstop hmoves' hexit, wordsTo_self]
  exact le_antisymm (fun w hw => (within hw).1 rfl)
    (kstar_le_of_mul_le_right (le_add_self.trans_eq unroll.symm)
      (le_self_add.trans_eq unroll.symm))

/-- The automaton with the edges of a hub: from the state `last` to the hub, from there into a part
and to `stop`, and back from the exit of the part. -/
def addHub (nfa : Nfa) (last hub stop : Nat) (f : Fragment) : Nfa :=
  (((nfa.addSilent last hub).addSilent hub f.start).addSilent f.stop hub).addSilent hub stop

section Hub

variable {last hub stop i : Nat} {f : Fragment}

/-- The state in front of a loop gets an edge to the hub. -/
theorem state_addHub_last (hlast : last < nfa.size) (hhub : last ≠ hub) (hexit : last ≠ f.stop) :
    (nfa.addHub last hub stop f).state last =
      { nfa.state last with silent := (nfa.state last).silent ++ [hub] } := by
  rw [addHub, state_addSilent_of_ne hhub, state_addSilent_of_ne hexit, state_addSilent_of_ne hhub,
    state_addSilent_self hlast]

/-- The hub leads into the copy and out. -/
theorem state_addHub_hub (hhub : hub < nfa.size) (hlast : hub ≠ last) (hexit : hub ≠ f.stop) :
    (nfa.addHub last hub stop f).state hub =
      { nfa.state hub with silent := (nfa.state hub).silent ++ [f.start] ++ [stop] } := by
  rw [addHub, state_addSilent_self (by simpa using hhub), state_addSilent_of_ne hexit,
    state_addSilent_self (by simpa using hhub), state_addSilent_of_ne hlast]

/-- The exit of the copy leads back to the hub. -/
theorem state_addHub_exit (hexit : f.stop < nfa.size) (hlast : f.stop ≠ last)
    (hhub : f.stop ≠ hub) :
    (nfa.addHub last hub stop f).state f.stop =
      { nfa.state f.stop with silent := (nfa.state f.stop).silent ++ [hub] } := by
  rw [addHub, state_addSilent_of_ne hhub, state_addSilent_self (by simpa using hexit),
    state_addSilent_of_ne hhub, state_addSilent_of_ne hlast]

/-- All other states stay as they are. -/
theorem state_addHub_of_ne (hlast : i ≠ last) (hhub : i ≠ hub) (hexit : i ≠ f.stop) :
    (nfa.addHub last hub stop f).state i = nfa.state i := by
  rw [addHub, state_addSilent_of_ne hhub, state_addSilent_of_ne hexit, state_addSilent_of_ne hhub,
    state_addSilent_of_ne hlast]

end Hub

/-- A hub around a part continues a state without edges by any number of strings of the part. -/
theorem continues_addHub {last stop : Nat} {nfa' : Nfa} {f : Fragment}
    (hadds : Adds nfa.addState.1 (nfa', f) l) (hstop : stop < nfa.size) (hlast : last < nfa.size)
    (hne : last ≠ stop) (hbare : nfa.state last = State.bare) :
    Continues nfa (nfa'.addHub last nfa.size stop f) last stop l∗ := by
  obtain ⟨hkeeps, hbuilt⟩ := hadds
  rw [size_addState] at hkeeps hbuilt
  dsimp only at hkeeps hbuilt
  have hle : nfa.size + 1 ≤ nfa'.size := by simpa using hkeeps.size_le
  have hfstop : nfa.size + 1 ≤ f.stop := hbuilt.first_le_stop
  have hold : ∀ i < nfa.size + 1, nfa'.state i = nfa.state i := fun i hi => by
    rw [hkeeps.state_eq i hi, state_addState]
  set final := nfa'.addHub last nfa.size stop f with hfinal
  have hsize : final.size = nfa'.size := by simp [hfinal, addHub]
  -- the three states that get edges: the one in front, the hub and the exit of the part
  have hlastFinal : final.state last = { State.bare with silent := [nfa.size] } := by
    rw [hfinal, state_addHub_last (by omega) (by omega) (by omega), hold last (by omega), hbare]
    rfl
  have hhubFinal : final.state nfa.size = { State.bare with silent := [f.start, stop] } := by
    rw [hfinal, state_addHub_hub (by omega) (by omega) (by omega), hold _ (by omega),
      state_of_size_le le_rfl]
    rfl
  have hexitFinal : final.state f.stop = { State.bare with silent := [nfa.size] } := by
    rw [hfinal, state_addHub_exit hbuilt.stop_lt (by omega) (by omega), hbuilt.stop_bare]
    rfl
  have hother : ∀ i, i ≠ last → i ≠ nfa.size → i ≠ f.stop → final.state i = nfa'.state i :=
    fun i h h' h'' => state_addHub_of_ne h h' h''
  have hpart : final.IsPart (Set.Ico (nfa.size + 1) nfa'.size) f l := by
    refine hbuilt.isPart.congr fun i hi hi' => hother i ?_ ?_ hi'
    · rw [Set.mem_Ico] at hi
      omega
    · rw [Set.mem_Ico] at hi
      omega
  have hout : stop ∉ Set.Ico (nfa.size + 1) nfa'.size := fun h => absurd h.1 (by omega)
  -- a new state is one of those three, one of the part, or it has no edges
  refine ⟨by omega, fun i hi hi' => ?_, fun i hi hi' j hj => ?_, fun i hi => ?_, ?_⟩
  · rw [hother i hi' (by omega) (by omega), hold i (by omega)]
  · rw [hsize, Set.mem_Ico]
    by_cases h : i = last
    · rw [h, hlastFinal] at hj
      obtain rfl : j = nfa.size := by simpa [State.targets, State.bare] using hj
      omega
    · by_cases h' : i = nfa.size
      · rw [h', hhubFinal] at hj
        have hcases : j = f.start ∨ j = stop := by simpa [State.targets, State.bare] using hj
        rcases hcases with rfl | rfl
        · have hmem := hpart.start_mem
          rw [Set.mem_Ico] at hmem
          omega
        · exact .inr rfl
      · by_cases h'' : i = f.stop
        · rw [h'', hexitFinal] at hj
          obtain rfl : j = nfa.size := by simpa [State.targets, State.bare] using hj
          omega
        · by_cases hlt : i < nfa'.size
          · have hmem := hpart.leftBy i ⟨by omega, hlt⟩ h'' j hj
            rw [Set.mem_Ico] at hmem
            omega
          · rw [hother i h h' h'', state_of_size_le (not_lt.1 hlt)] at hj
            simp at hj
  · by_cases h : i = last
    · rw [h, hlastFinal]
      rfl
    · by_cases h' : i = nfa.size
      · rw [h', hhubFinal]
        rfl
      · by_cases h'' : i = f.stop
        · rw [h'', hexitFinal]
          rfl
        · rw [hother i h h' h'']
          exact hbuilt.accept_eq_none i (by omega)
  · rw [wordsTo_of_silent_singleton hne (by rw [hlastFinal]; rfl) (by rw [hlastFinal])]
    exact wordsTo_hub hpart hout (by omega) (by rw [hhubFinal]) (by rw [hhubFinal]; rfl)
      (by rw [hexitFinal]) (by rw [hexitFinal]; rfl)

/-- A state that is added to be the target of what continues an exit is one of the new states. -/
theorem Continues.of_addState {nfa' : Nfa} {last : Nat}
    (h : Continues nfa.addState.1 nfa' last nfa.size l) : Continues nfa nfa' last nfa.size l := by
  have hle : nfa.size + 1 ≤ nfa'.size := by simpa using h.size_le
  refine ⟨by omega, fun i hi hne => ?_, fun i hi hne j hj => ?_, fun i hi => ?_, h.wordsTo_eq⟩
  · rw [h.state_eq i (by rw [size_addState]; omega) hne, state_addState]
  · refine (h.targets i (by rw [size_addState]; omega) hne j hj).imp_left fun hmem => ?_
    rw [size_addState, Set.mem_Ico] at hmem
    exact ⟨by omega, hmem.2⟩
  · by_cases hlast : i = last ∨ nfa.size + 1 ≤ i
    · exact h.accept_eq_none i (by rwa [size_addState])
    · rw [not_or] at hlast
      rw [h.state_eq i (by rw [size_addState]; omega) hlast.1, state_addState,
        state_of_size_le (by omega)]
      rfl

/-- A state alone is a part for the empty string. -/
theorem built_addState (nfa : Nfa) : Built nfa.size nfa.addState.1 ⟨nfa.size, nfa.size⟩ 1 := by
  refine ⟨⟨by simp, by simp, fun i hi hne => ?_, wordsTo_self⟩, ?_, fun i hi => ?_⟩
  · rw [size_addState, Set.mem_Ico] at hi
    exact absurd hne (by simp only; omega)
  · rw [state_addState, state_of_size_le le_rfl]
  · rw [state_addState, state_of_size_le hi]
    rfl

/-- **A repetition adds a part for the copies that it asks for.** -/
theorem adds_addRepeated (hadd : ∀ nfa, Adds nfa (add nfa) l) (min : Nat) (max : Option Nat)
    (nfa : Nfa) : Adds nfa (addRepeated add min max nfa) (copiesOf l min max) := by
  obtain ⟨hrow, hkeeps⟩ := built_addCopies hadd min (built_addState nfa)
  have hkeep : Keeps nfa.size nfa nfa.addState.1 := ⟨by simp, fun i _ => state_addState nfa i⟩
  rw [one_mul] at hrow
  rw [addRepeated]
  dsimp only [addState_snd]
  generalize addCopies add min nfa.addState.1 nfa.size = result at hrow hkeeps ⊢
  obtain ⟨row, last⟩ := result
  dsimp only at hrow hkeeps ⊢
  have hlast : last < row.size := hrow.stop_lt
  have hbare : row.addState.1.state last = State.bare := by
    rw [state_addState]
    exact hrow.stop_bare
  have hsize : row.addState.1.size = row.size + 1 := size_addState row
  -- In both cases the exit of the row is continued up to the state behind it.
  have finish : ∀ {final : Nfa} {m : Language UInt8},
      Continues row.addState.1 final last row.size m →
      Adds nfa (final, ⟨nfa.size, row.size⟩) (l ^ min * m) := by
    intro final m hc
    have hle := hc.size_le
    obtain ⟨hbuilt, hkeeps'⟩ := hrow.extend hc.of_addState le_rfl (by omega)
      (by rw [hc.state_eq _ (by omega) (by omega), state_addState, state_of_size_le le_rfl])
    exact ⟨hkeep.trans (hkeeps.trans hkeeps'), hbuilt⟩
  cases max with
  | none =>
    rw [copiesOf_none]
    exact finish (continues_addHub (hadd row.addState.1.addState.1) (by omega) (by omega) (by omega)
      hbare)
  | some max =>
    rw [copiesOf_some]
    exact finish (continues_addOptionalCopies hadd (max - min) (by omega) (by omega) (by omega)
      hbare)

end Repetition

/-! ### Choices

The choices have a common entry and a common exit, which are made first.  Each of them is a path of
its own between the two. -/

/-- The automaton has grown by some choices between the states `start` and `stop`: the former leads
to their entries, and from there the strings of the language lead to the latter. -/
structure Chooses (nfa nfa' : Nfa) (start stop : Nat) (l : Language UInt8) : Prop where
  size_le : nfa.size ≤ nfa'.size
  state_eq : ∀ i < nfa.size, i ≠ start → nfa'.state i = nfa.state i
  targets : ∀ i, nfa.size ≤ i → ∀ j ∈ (nfa'.state i).targets,
    j ∈ Set.Ico nfa.size nfa'.size ∨ j = stop
  accept_eq_none : ∀ i, nfa.size ≤ i → (nfa'.state i).accept = none
  entries : ∃ entries : List Nat, (∀ j ∈ entries, j ∈ Set.Ico nfa.size nfa'.size) ∧
    nfa'.state start =
      { nfa.state start with silent := (nfa.state start).silent ++ entries } ∧
    ∀ w, w ∈ l ↔ ∃ j ∈ entries, w ∈ nfa'.wordsTo stop j

/-- Without a choice there is no string. -/
theorem chooses_nil {start stop : Nat} : Chooses nfa nfa start stop 0 := by
  refine ⟨le_rfl, fun _ _ _ => rfl, fun i hi j hj => ?_, fun i hi => ?_, [], ?_, ?_, ?_⟩
  · simp [state_of_size_le hi] at hj
  · rw [state_of_size_le hi]
    rfl
  · simp
  · simp
  · intro w
    simp

/-- One more choice in front of some others. -/
theorem Chooses.cons {start stop : Nat} {nfa' final : Nfa} {f : Fragment}
    (hadds : Adds nfa (nfa', f) l) (hstart : start < nfa.size) (hstop : stop < nfa.size)
    (hrest : Chooses ((nfa'.addSilent start f.start).addSilent f.stop stop) final start stop m) :
    Chooses nfa final start stop (l + m) := by
  obtain ⟨hkeeps, hbuilt⟩ := hadds
  dsimp only at hkeeps hbuilt
  have hle : nfa.size ≤ nfa'.size := hkeeps.size_le
  have hfstop : nfa.size ≤ f.stop := hbuilt.first_le_stop
  have hfstart : nfa.size ≤ f.start := hbuilt.first_le_start
  obtain ⟨hsize, hstate, htargets, haccept, entries, hentries, hentry, hwords⟩ := hrest
  set joined := (nfa'.addSilent start f.start).addSilent f.stop stop with hjoined
  have hjoinedSize : joined.size = nfa'.size := by simp [hjoined]
  rw [hjoinedSize] at hsize hstate htargets haccept hentries
  have hother : ∀ i, i ≠ start → i ≠ f.stop → joined.state i = nfa'.state i := fun i h h' => by
    rw [hjoined, state_addSilent_of_ne h', state_addSilent_of_ne h]
  have hexit : final.state f.stop = { State.bare with silent := [stop] } := by
    rw [hstate _ hbuilt.stop_lt (by omega), hjoined,
      state_addSilent_self (by simpa using hbuilt.stop_lt), state_addSilent_of_ne (by omega),
      hbuilt.stop_bare]
    rfl
  have hpart : final.IsPart (Set.Ico nfa.size nfa'.size) f l := by
    apply hbuilt.isPart.congr
    intro i hi hi'
    rw [Set.mem_Ico] at hi
    rw [hstate i hi.2 (by omega), hother i (by omega) hi']
  have hout : stop ∉ Set.Ico nfa.size nfa'.size := fun h => absurd h.1 (by omega)
  have hfirst : final.wordsTo stop f.start = l := by
    rw [hpart.wordsTo_start hout, wordsTo_of_silent_singleton (by omega) (by rw [hexit]; rfl)
      (by rw [hexit]), wordsTo_self, mul_one]
  -- a new state is one of the part, its exit, or one of the other choices
  refine ⟨hle.trans hsize, fun i hi hi' => ?_, fun i hi j hj => ?_, fun i hi => ?_,
    f.start :: entries, ?_, ?_, ?_⟩
  · rw [hstate i (by omega) hi', hother i hi' (by omega), hkeeps.state_eq i hi]
  · by_cases hlt : i < nfa'.size
    · by_cases hi' : i = f.stop
      · rw [hi', hexit] at hj
        exact .inr (by simpa [State.targets, State.bare] using hj)
      · have hmem := hpart.leftBy i ⟨hi, hlt⟩ hi' j hj
        exact .inl ⟨hmem.1, lt_of_lt_of_le hmem.2 hsize⟩
    · exact (htargets i (not_lt.1 hlt) j hj).imp_left fun hmem => ⟨hle.trans hmem.1, hmem.2⟩
  · by_cases hlt : i < nfa'.size
    · by_cases hi' : i = f.stop
      · rw [hi', hexit]
        rfl
      · rw [hstate i hlt (by omega), hother i (by omega) hi']
        exact hbuilt.accept_eq_none i hi
    · exact haccept i (not_lt.1 hlt)
  · intro j hj
    rcases List.mem_cons.1 hj with rfl | hj
    · exact ⟨hfstart, lt_of_lt_of_le hbuilt.start_lt hsize⟩
    · exact ⟨hle.trans (hentries j hj).1, (hentries j hj).2⟩
  · rw [hentry, hjoined, state_addSilent_of_ne (by omega), state_addSilent_self (by omega),
      hkeeps.state_eq start hstart]
    simp
  · intro w
    rw [Language.mem_add, hwords]
    simp [hfirst]

/-- Choices between two new states are a part for them. -/
theorem adds_choices {final : Nfa}
    (h : Chooses nfa.addState.1.addState.1 final nfa.size (nfa.size + 1) l) :
    Adds nfa (final, ⟨nfa.size, nfa.size + 1⟩) l := by
  obtain ⟨hsize, hstate, htargets, haccept, entries, hentries, hentry, hwords⟩ := h
  have hbare : ∀ i, nfa.addState.1.addState.1.state i = nfa.state i := fun i => by simp
  have hsize' : nfa.addState.1.addState.1.size = nfa.size + 2 := by simp
  rw [hsize'] at hsize hstate htargets haccept hentries
  rw [hbare, state_of_size_le le_rfl] at hentry
  have hexit : final.state (nfa.size + 1) = State.bare := by
    rw [hstate _ (by omega) (by omega), hbare, state_of_size_le (by omega)]
  -- the states of before are kept, and each edge of the others stays among them
  refine ⟨⟨by simp only; omega, fun i hi => ?_⟩, ⟨⟨?_, ?_, fun i hi hne j hj => ?_, ?_⟩, hexit, ?_⟩⟩
  · simp only
    rw [hstate i (by omega) (by omega), hbare]
  · simp only [Set.mem_Ico]
    omega
  · simp only [Set.mem_Ico]
    omega
  · dsimp only at hi hne ⊢
    rw [Set.mem_Ico] at hi ⊢
    by_cases h : i = nfa.size
    · rw [h, hentry] at hj
      have hmem := hentries j (by simpa [State.targets, State.bare] using hj)
      rw [Set.mem_Ico] at hmem
      omega
    · rcases htargets i (by omega) j hj with hmem | rfl
      · rw [Set.mem_Ico] at hmem
        omega
      · omega
  · ext w
    rw [mem_wordsTo_of_moves_nil (by simp) (by rw [hentry]; rfl), hentry, hwords]
    simp [State.bare]
  · intro i hi
    by_cases h : i < nfa.size + 2
    · by_cases h' : i = nfa.size
      · rw [h', hentry]
        rfl
      · rw [hstate i h h', hbare, state_of_size_le hi]
        rfl
    · exact haccept i (not_lt.1 h)

/-! ### All expressions

The proof follows the tree: a leaf is a single part, a row joins the parts of its items, and a
choice and a repetition go around them. -/

mutual

/-- **Adding an expression adds a part for its language.** -/
theorem adds_addNode (nfa : Nfa) : ∀ node : Node, Adds nfa (addNode node nfa) node.language
  | .empty => by
    rw [addNode, Node.language]
    exact adds_addEmpty nfa
  | .set s => by
    rw [addNode, Node.language]
    exact adds_addSet nfa s
  | .concat [] => by
    rw [addNode, Node.language, Node.languageOfAll]
    exact adds_addEmpty nfa
  | .concat (item :: items) => by
    rw [addNode, Node.language, Node.languageOfAll]
    have hitem := adds_addNode nfa item
    obtain ⟨hbuilt, hkeeps⟩ := built_addBehind items hitem.built
    exact ⟨hitem.keeps.trans hkeeps, hbuilt⟩
  | .alt items => by
    rw [addNode, Node.language]
    have hsize : nfa.addState.1.addState.1.size = nfa.size + 2 := by simp
    have h : Chooses nfa.addState.1.addState.1 _ nfa.size (nfa.size + 1) _ :=
      chooses_addChoices items nfa.addState.1.addState.1 (by omega) (by omega)
    simpa using adds_choices h
  | .repeated node min max => by
    rw [addNode, Node.language]
    exact adds_addRepeated (fun nfa => adds_addNode nfa node) min max nfa

/-- Adding expressions behind a part makes it a part for the product. -/
theorem built_addBehind {first : Nat} {nfa : Nfa} {f : Fragment} {l : Language UInt8} :
    ∀ items : List Node, Built first nfa f l →
      Built first (addBehind items f nfa).1 (addBehind items f nfa).2
        (l * Node.languageOfAll items) ∧ Keeps first nfa (addBehind items f nfa).1
  | [], h => by
    rw [addBehind, Node.languageOfAll, mul_one]
    exact ⟨h, Keeps.refl _ _⟩
  | item :: items, h => by
    rw [addBehind, Node.languageOfAll, ← mul_assoc]
    obtain ⟨hjoin, hkeeps⟩ := h.join (adds_addNode nfa item)
    obtain ⟨hbuilt, hkeeps'⟩ := built_addBehind items hjoin
    exact ⟨hbuilt, hkeeps.trans hkeeps'⟩

/-- Adding expressions between two states adds a choice between them. -/
theorem chooses_addChoices {start stop : Nat} : ∀ (items : List Node) (nfa : Nfa),
    start < nfa.size → stop < nfa.size →
      Chooses nfa (addChoices items ⟨start, stop⟩ nfa) start stop (Node.languageOfAny items)
  | [], _, _, _ => by
    rw [addChoices, Node.languageOfAny]
    exact chooses_nil
  | item :: items, nfa, hstart, hstop => by
    rw [addChoices, Node.languageOfAny]
    have hitem := adds_addNode nfa item
    have hle := hitem.keeps.size_le
    exact .cons hitem hstart hstop (chooses_addChoices items _
      (by simp only [size_addSilent]; omega) (by simp only [size_addSilent]; omega))

end

end Nfa

end FrontEnd
