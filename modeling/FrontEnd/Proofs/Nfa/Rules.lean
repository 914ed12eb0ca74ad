import FrontEnd.Lexer.Build
import FrontEnd.Proofs.Nfa.Until

/-!
# The automaton of all rules

Each rule is a part of its own, with a mark at its exit, and the start states lead to the entries of
the rules that are active there.  No edge leads out of a part or back to a start state, so what a
start state accepts is what the rules behind its silent edges match.

## Main Definitions

* `ResolvedRule.language` — the strings that a rule matches
* `ResolvedRule.Enters` — the start states in which a rule is active
* `Nfa.Accepts` — a string leads from a state to a mark

## Main Statements

* `Nfa.accepts_ofRules_iff` — a start state accepts the strings of the rules that are active there

## Design Notes

The start states have the lowest numbers, and each rule adds states behind all others.  So the
invariant only says that the edges of the start states are silent and that no edge leads to a start
state; a new rule changes what a start state accepts by its own strings, where it is active.
-/

namespace FrontEnd

namespace ResolvedRule

/-- The strings that a rule matches: those of its pattern, up to the first occurrence of its end
pattern if there is one. -/
def language (r : ResolvedRule) : Language UInt8 :=
  r.start.node.language * match r.stop with
    | none => 1
    | some stop => untilFirst stop.node.language

/-- The rule is active in the start state with the number `i`. -/
def Enters (r : ResolvedRule) (i : Nat) : Prop :=
  ∃ s ∈ r.states, i = Nfa.lineStart s ∨ r.atLineStart = false ∧ i = Nfa.insideLine s

/-- At the beginning of a line, all rules of the lexer state are active. -/
theorem enters_lineStart_iff {r : ResolvedRule} {s : Nat} :
    r.Enters (Nfa.lineStart s) ↔ s ∈ r.states := by
  simp only [Enters, Nfa.lineStart, Nfa.insideLine]
  constructor
  · rintro ⟨t, ht, h | ⟨-, h⟩⟩
    · rwa [(by omega : s = t)]
    · omega
  · exact fun h => ⟨s, h, .inl rfl⟩

/-- Elsewhere, those that are not bound to the beginning of a line. -/
theorem enters_insideLine_iff {r : ResolvedRule} {s : Nat} :
    r.Enters (Nfa.insideLine s) ↔ s ∈ r.states ∧ r.atLineStart = false := by
  simp only [Enters, Nfa.lineStart, Nfa.insideLine]
  constructor
  · rintro ⟨t, ht, h | ⟨hstart, h⟩⟩
    · omega
    · exact ⟨by rwa [(by omega : s = t)], hstart⟩
  · exact fun h => ⟨s, h.1, .inr ⟨h.2, rfl⟩⟩

end ResolvedRule

namespace Nfa

variable {nfa nfa' : Nfa}

/-! ### Acceptance

A string is accepted with a mark when a path over it leads to a state with the mark.  What a state
accepts depends on the region that it can reach. -/

/-- The string leads from a state to one with the mark. -/
def Accepts (nfa : Nfa) (i : Nat) (w : List UInt8) (a : Accept) : Prop :=
  ∃ j, nfa.Path i w j ∧ (nfa.state j).accept = some a

/-- A state with silent edges only accepts what their targets accept. -/
theorem accepts_iff_of_moves_nil {i : Nat} {w : List UInt8} {a : Accept}
    (hmoves : (nfa.state i).moves = []) (haccept : (nfa.state i).accept = none) :
    nfa.Accepts i w a ↔ ∃ j ∈ (nfa.state i).silent, nfa.Accepts j w a := by
  constructor
  · rintro ⟨k, hpath, ha⟩
    cases hpath with
    | refl => simp [haccept] at ha
    | silent hj hpath => exact ⟨_, hj, k, hpath, ha⟩
    | move hj => simp [hmoves] at hj
  · rintro ⟨j, hj, k, hpath, ha⟩
    exact ⟨k, .silent hj hpath, ha⟩

/-- A region is closed by its own states. -/
theorem Closed.congr {region : Set Nat} (h : nfa.Closed region)
    (heq : ∀ i ∈ region, nfa'.state i = nfa.state i) : nfa'.Closed region := by
  intro i hi
  rw [heq i hi]
  exact h i hi

/-- A path that begins in a closed region stays there, and is one of any automaton with the same
states in the region. -/
theorem Path.congr {region : Set Nat} (hclosed : nfa.Closed region)
    (heq : ∀ i ∈ region, nfa'.state i = nfa.state i) {i j : Nat} {w : List UInt8}
    (h : nfa.Path i w j) (hi : i ∈ region) : nfa'.Path i w j ∧ j ∈ region := by
  induction h with
  | refl i => exact ⟨.refl i, hi⟩
  | silent hj _ ih =>
    obtain ⟨hpath, hmem⟩ := ih (hclosed _ hi _ (State.mem_targets_of_silent hj))
    exact ⟨.silent (heq _ hi ▸ hj) hpath, hmem⟩
  | move hj hb _ ih =>
    obtain ⟨hpath, hmem⟩ := ih (hclosed _ hi _ (State.mem_targets_of_move hj))
    exact ⟨.move (heq _ hi ▸ hj) hb hpath, hmem⟩

/-- What is accepted from inside of a closed region depends on the states of the region only. -/
theorem accepts_congr {region : Set Nat} (hclosed : nfa.Closed region)
    (heq : ∀ i ∈ region, nfa'.state i = nfa.state i) {i : Nat} {w : List UInt8} {a : Accept}
    (hi : i ∈ region) : nfa'.Accepts i w a ↔ nfa.Accepts i w a := by
  constructor
  · rintro ⟨j, hpath, ha⟩
    obtain ⟨hpath, hj⟩ := hpath.congr (hclosed.congr heq) (fun i hi => (heq i hi).symm) hi
    exact ⟨j, hpath, heq j hj ▸ ha⟩
  · rintro ⟨j, hpath, ha⟩
    obtain ⟨hpath, hj⟩ := hpath.congr hclosed heq hi
    exact ⟨j, hpath, (heq j hj).symm ▸ ha⟩

/-- The exit of a part that has just been built is marked: the part is closed, and its entry accepts
its strings with the mark. -/
theorem Built.setAccept {first : Nat} {f : Fragment} {l : Language UInt8} {a : Accept}
    (h : Built first nfa f l) :
    (nfa.setAccept f.stop a).Closed (Set.Ico first nfa.size) ∧
      ∀ w b, (nfa.setAccept f.stop a).Accepts f.start w b ↔ b = a ∧ w ∈ l := by
  have hstop : (nfa.setAccept f.stop a).state f.stop = { State.bare with accept := some a } := by
    rw [state_setAccept_self h.stop_lt, h.stop_bare]
  have hpart : (nfa.setAccept f.stop a).IsPart (Set.Ico first nfa.size) f l :=
    h.isPart.congr fun i _ hne => state_setAccept_of_ne hne
  have hclosed : (nfa.setAccept f.stop a).Closed (Set.Ico first nfa.size) := by
    intro i hi j hj
    by_cases hne : i = f.stop
    · rw [hne, hstop] at hj
      cases hj
    · exact hpart.leftBy i hi hne j hj
  have hwords : ∀ w, (nfa.setAccept f.stop a).Path f.start w f.stop ↔ w ∈ l := fun w => by
    rw [path_iff_mem_wordsTo (by rw [hstop]; rfl), hpart.wordsTo_eq]
  refine ⟨hclosed, fun w b => ⟨?_, ?_⟩⟩
  · rintro ⟨j, hpath, hb⟩
    have hj := (hpath.congr hclosed (fun _ _ => rfl) hpart.start_mem).2
    -- the exit has the only mark of the part
    by_cases hne : j = f.stop
    · subst hne
      rw [hstop] at hb
      exact ⟨(Option.some.inj hb).symm, (hwords w).1 hpath⟩
    · rw [state_setAccept_of_ne hne, h.accept_eq_none j hj.1] at hb
      cases hb
  · rintro ⟨rfl, hw⟩
    exact ⟨f.stop, (hwords w).2 hw, by rw [hstop]⟩

/-! ### The body of a rule -/

/-- A rule adds a part for its strings. -/
theorem adds_addRuleBody (nfa : Nfa) (r : ResolvedRule) :
    Adds nfa (nfa.addRuleBody r) r.language := by
  have hstart := adds_addNode nfa r.start.node
  simp only [addRuleBody, ResolvedRule.language]
  cases r.stop with
  | none => simpa using hstart
  | some stop =>
    obtain ⟨hbuilt, hkeeps⟩ := hstart.built.join (adds_addUntil _ stop.node)
    exact ⟨hstart.keeps.trans hkeeps, hbuilt⟩

/-! ### The start states

Entering a rule adds one silent edge for each start state in which it is active.  The relation says
this of several edges at once, so that the loop over the lexer states is a composition of its
steps. -/

@[simp] theorem moves_addSilent {i j k : Nat} :
    ((nfa.addSilent i j).state k).moves = (nfa.state k).moves := by
  rw [addSilent, state_modify]
  split <;> rfl

@[simp] theorem accept_addSilent {i j k : Nat} :
    ((nfa.addSilent i j).state k).accept = (nfa.state k).accept := by
  rw [addSilent, state_modify]
  split <;> rfl

theorem mem_silent_addSilent {i j k t : Nat} (hi : i < nfa.size) :
    t ∈ ((nfa.addSilent i j).state k).silent ↔ t ∈ (nfa.state k).silent ∨ k = i ∧ t = j := by
  by_cases hk : k = i
  · subst hk
    simp [state_addSilent_self hi]
  · simp [state_addSilent_of_ne hk, hk]

/-- What entering a part from some start states does: they get silent edges to its entry, and
nothing else changes. -/
structure Entered (count : Nat) (nfa nfa' : Nfa) (start : Nat) (p : Nat → Prop) : Prop where
  size_eq : nfa'.size = nfa.size
  state_eq : ∀ i, 2 * count ≤ i → nfa'.state i = nfa.state i
  moves_eq : ∀ i, (nfa'.state i).moves = (nfa.state i).moves
  accept_eq : ∀ i, (nfa'.state i).accept = (nfa.state i).accept
  silent : ∀ i t, t ∈ (nfa'.state i).silent ↔ t ∈ (nfa.state i).silent ∨ p i ∧ t = start

theorem Entered.refl (count : Nat) (nfa : Nfa) (start : Nat) :
    Entered count nfa nfa start fun _ => False :=
  ⟨rfl, fun _ _ => rfl, fun _ => rfl, fun _ => rfl, by simp⟩

/-- Two steps enter from the start states of both. -/
theorem Entered.trans {count start : Nat} {nfa'' : Nfa} {p q : Nat → Prop}
    (h : Entered count nfa nfa' start p) (h' : Entered count nfa' nfa'' start q) :
    Entered count nfa nfa'' start fun i => p i ∨ q i where
  size_eq := h'.size_eq.trans h.size_eq
  state_eq := fun i hi => (h'.state_eq i hi).trans (h.state_eq i hi)
  moves_eq := fun i => (h'.moves_eq i).trans (h.moves_eq i)
  accept_eq := fun i => (h'.accept_eq i).trans (h.accept_eq i)
  silent := fun i t => by rw [h'.silent, h.silent, or_and_right, or_assoc]

/-- The start states can be described in another way. -/
theorem Entered.congr {count start : Nat} {p q : Nat → Prop} (h : Entered count nfa nfa' start p)
    (hpq : ∀ i, p i ↔ q i) : Entered count nfa nfa' start q :=
  { h with silent := fun i t => by rw [h.silent, hpq] }

/-- One edge enters from one start state. -/
theorem entered_addSilent {count i : Nat} (start : Nat) (hi : i < 2 * count)
    (hsize : 2 * count ≤ nfa.size) :
    Entered count nfa (nfa.addSilent i start) start fun k => k = i where
  size_eq := size_addSilent nfa i start
  state_eq := fun k hk => state_addSilent_of_ne (by omega)
  moves_eq := fun k => moves_addSilent
  accept_eq := fun k => accept_addSilent
  silent := fun k t => mem_silent_addSilent (lt_of_lt_of_le hi hsize)

/-- A lexer state has two start states, and rules that are bound to the beginning of a line are
entered from one of them. -/
theorem entered_enter {count s : Nat} (f : Fragment) (anchored : Bool) (hs : s < count)
    (hsize : 2 * count ≤ nfa.size) :
    Entered count nfa (enter f anchored nfa s) f.start
      fun i => i = lineStart s ∨ anchored = false ∧ i = insideLine s := by
  have hline : lineStart s < 2 * count := by
    rw [lineStart]
    omega
  have hinside : insideLine s < 2 * count := by
    rw [insideLine]
    omega
  cases anchored with
  | true => exact (entered_addSilent f.start hline hsize).congr (by simp)
  | false =>
    have hfirst := entered_addSilent f.start hinside hsize
    exact (hfirst.trans (entered_addSilent f.start hline (by simpa using hsize))).congr fun i => by
      simp [or_comm]

/-- The loop over all lexer states of a rule. -/
theorem entered_foldl_enter {count : Nat} (f : Fragment) (anchored : Bool) {states : List Nat}
    (hstates : ∀ s ∈ states, s < count) (hsize : 2 * count ≤ nfa.size) :
    Entered count nfa (states.foldl (enter f anchored) nfa) f.start
      fun i => ∃ s ∈ states, i = lineStart s ∨ anchored = false ∧ i = insideLine s := by
  induction states generalizing nfa with
  | nil => exact (Entered.refl count nfa f.start).congr (by simp)
  | cons s states ih =>
    rw [List.forall_mem_cons] at hstates
    have hfirst := entered_enter f anchored hstates.1 hsize
    exact (hfirst.trans (ih hstates.2 (hfirst.size_eq ▸ hsize))).congr (by simp)

/-! ### All rules

With each rule the start states accept its strings where it is active, in addition to what they have
accepted before.  The mark has the number of the rule. -/

/-- The first `2 * count` states are start states, and no edge leads to one of them. -/
structure Ready (count : Nat) (nfa : Nfa) : Prop where
  le_size : 2 * count ≤ nfa.size
  closed : nfa.Closed (Set.Ico (2 * count) nfa.size)
  moves : ∀ i < 2 * count, (nfa.state i).moves = []
  accept : ∀ i < 2 * count, (nfa.state i).accept = none
  silent : ∀ i < 2 * count, ∀ j ∈ (nfa.state i).silent, j ∈ Set.Ico (2 * count) nfa.size

/-- An automaton that is ready for more rules has edges to its own states only. -/
theorem Ready.wellFormed {count : Nat} (h : Ready count nfa) : nfa.WellFormed := by
  intro i j hj
  by_cases hi : i < 2 * count
  · rcases List.mem_append.1 hj with hj | hj
    · exact (h.silent i hi j hj).2
    · simp [h.moves i hi] at hj
  · by_cases hlt : i < nfa.size
    · exact (h.closed i ⟨not_lt.1 hi, hlt⟩ j hj).2
    · rw [state_of_size_le (not_lt.1 hlt)] at hj
      cases hj

/-- In the beginning all states are bare. -/
theorem state_ofStates (count i : Nat) : (ofStates count).state i = State.bare := by
  simp [ofStates, state, Array.getElem?_replicate]
  split <;> rfl

/-- Bare start states are ready for rules. -/
theorem ready_ofStates (count : Nat) : Ready count (ofStates count) := by
  refine ⟨by simp [ofStates, size], ?_, ?_, ?_, ?_⟩
  · intro i _ j hj
    simp [state_ofStates] at hj
  · intro i _
    rw [state_ofStates]
    rfl
  · intro i _
    rw [state_ofStates]
    rfl
  · intro i _ j hj
    rw [state_ofStates] at hj
    cases hj

/-- **A rule is added.**  The start states in which it is active accept its strings with its mark,
besides what they have accepted before. -/
theorem Ready.addRule {count : Nat} {r : ResolvedRule} (h : Ready count nfa) (id : Nat)
    (hstates : ∀ s ∈ r.states, s < count) :
    Ready count (nfa.addRule id r) ∧ ∀ i < 2 * count, ∀ w a,
      (nfa.addRule id r).Accepts i w a ↔ nfa.Accepts i w a ∨
        r.Enters i ∧ a = ⟨id, r.atLineEnd⟩ ∧ w ∈ r.language := by
  obtain ⟨hkeeps, hbuilt⟩ := adds_addRuleBody nfa r
  rw [Nfa.addRule]
  generalize nfa.addRuleBody r = result at hkeeps hbuilt ⊢
  obtain ⟨nfa₁, f⟩ := result
  obtain ⟨hclosed, haccepts⟩ := hbuilt.setAccept (a := ⟨id, r.atLineEnd⟩)
  set nfa₂ := nfa₁.setAccept f.stop ⟨id, r.atLineEnd⟩
  have hsize₂ : nfa₂.size = nfa₁.size := size_setAccept _ _ _
  have hle : 2 * count ≤ nfa₂.size := hsize₂ ▸ h.le_size.trans hkeeps.size_le
  have hentered := entered_foldl_enter f r.atLineStart hstates hle
  set nfa₃ := r.states.foldl (enter f r.atLineStart) nfa₂
  have hsize₃ : nfa₃.size = nfa₁.size := hentered.size_eq.trans hsize₂
  have hgrow : nfa.size ≤ nfa₃.size := hsize₃ ▸ hkeeps.size_le
  -- the states of the other rules have stayed the same
  have heq₂ : ∀ i < nfa.size, nfa₂.state i = nfa.state i := fun i hi => by
    have hne : i ≠ f.stop := fun heq => absurd (heq ▸ hbuilt.first_le_stop) (not_le.2 hi)
    rw [state_setAccept_of_ne hne, hkeeps.state_eq i hi]
  have hold : ∀ i ∈ Set.Ico (2 * count) nfa.size, nfa₃.state i = nfa.state i := fun i hi => by
    rw [hentered.state_eq i hi.1, heq₂ i hi.2]
  have hnew : ∀ i ∈ Set.Ico nfa.size nfa₁.size, nfa₃.state i = nfa₂.state i := fun i hi =>
    hentered.state_eq i (h.le_size.trans hi.1)
  have hmoves : ∀ i < 2 * count, (nfa₃.state i).moves = [] := fun i hi => by
    rw [hentered.moves_eq, heq₂ i (lt_of_lt_of_le hi h.le_size), h.moves i hi]
  have haccept : ∀ i < 2 * count, (nfa₃.state i).accept = none := fun i hi => by
    rw [hentered.accept_eq, heq₂ i (lt_of_lt_of_le hi h.le_size), h.accept i hi]
  have hsilent : ∀ i < 2 * count, ∀ j, j ∈ (nfa₃.state i).silent ↔
      j ∈ (nfa.state i).silent ∨ r.Enters i ∧ j = f.start := fun i hi j => by
    rw [hentered.silent, heq₂ i (lt_of_lt_of_le hi h.le_size)]
    rfl
  refine ⟨⟨h.le_size.trans hgrow, ?_, hmoves, haccept, ?_⟩, fun i hi w a => ?_⟩
  · -- neither the other rules nor the new one can be left
    intro i hi j hj
    by_cases hlt : i < nfa.size
    · have hj := h.closed.congr hold i ⟨hi.1, hlt⟩ j hj
      exact ⟨hj.1, lt_of_lt_of_le hj.2 hgrow⟩
    · have hj := hclosed.congr hnew i ⟨not_lt.1 hlt, hsize₃ ▸ hi.2⟩ j hj
      exact ⟨h.le_size.trans hj.1, hsize₃ ▸ hj.2⟩
  · intro i hi j hj
    rcases (hsilent i hi j).1 hj with hj | ⟨-, rfl⟩
    · have hj := h.silent i hi j hj
      exact ⟨hj.1, lt_of_lt_of_le hj.2 hgrow⟩
    · exact ⟨h.le_size.trans hbuilt.first_le_start, hsize₃ ▸ hbuilt.start_lt⟩
  · -- a start state leads into the other rules as before, and into the new one
    rw [accepts_iff_of_moves_nil (hmoves i hi) (haccept i hi),
      accepts_iff_of_moves_nil (h.moves i hi) (h.accept i hi)]
    simp only [hsilent i hi, or_and_right, exists_or]
    refine or_congr (exists_congr fun j => and_congr_right fun hj => ?_) ?_
    · exact accepts_congr h.closed hold (h.silent i hi j hj)
    · have hstart := fun w b => (accepts_congr hclosed hnew hbuilt.isPart.start_mem).trans
        (haccepts w b)
      simp [hstart]

/-- **All rules**: a start state accepts what it has accepted before, and the strings of each rule
that is active there, with the mark of this rule. -/
theorem Ready.addRules {count : Nat} {rules : List ResolvedRule} (h : Ready count nfa) (id : Nat)
    (hstates : ∀ r ∈ rules, ∀ s ∈ r.states, s < count) :
    Ready count (nfa.addRules id rules) ∧ ∀ i < 2 * count, ∀ w a,
      (nfa.addRules id rules).Accepts i w a ↔ nfa.Accepts i w a ∨
        ∃ k r, rules[k]? = some r ∧ r.Enters i ∧ a = ⟨id + k, r.atLineEnd⟩ ∧ w ∈ r.language := by
  induction rules generalizing nfa id with
  | nil => exact ⟨h, by simp [Nfa.addRules]⟩
  | cons r rules ih =>
    rw [List.forall_mem_cons] at hstates
    obtain ⟨hready, haccepts⟩ := h.addRule id hstates.1
    obtain ⟨hready', haccepts'⟩ := ih hready (id + 1) hstates.2
    refine ⟨hready', fun i hi w a => ?_⟩
    rw [Nfa.addRules, haccepts' i hi, haccepts i hi, or_assoc]
    refine or_congr_right ⟨?_, ?_⟩
    · rintro (hr | ⟨k, s, hk, hs⟩)
      · exact ⟨0, r, rfl, hr⟩
      · exact ⟨k + 1, s, hk, by rwa [Nat.add_assoc, Nat.add_comm 1 k] at hs⟩
    · rintro ⟨k, s, hk, hs⟩
      cases k with
      | zero =>
        obtain rfl := Option.some.inj hk
        exact .inl hs
      | succ k => exact .inr ⟨k, s, hk, by rwa [Nat.add_assoc, Nat.add_comm 1 k]⟩

/-- **The start states accept the strings of the rules that are active there**, each with the mark
of its rule. -/
theorem accepts_ofRules_iff {count : Nat} {rules : List ResolvedRule}
    (hstates : ∀ r ∈ rules, ∀ s ∈ r.states, s < count) {i : Nat} (hi : i < 2 * count)
    {w : List UInt8} {a : Accept} :
    (ofRules count rules).Accepts i w a ↔
      ∃ r, rules[a.rule]? = some r ∧ r.Enters i ∧ a.atLineEnd = r.atLineEnd ∧ w ∈ r.language := by
  have hready := ready_ofStates count
  have hnone : ¬ (ofStates count).Accepts i w a := by
    rw [accepts_iff_of_moves_nil (hready.moves i hi) (hready.accept i hi)]
    rintro ⟨j, hj, -⟩
    simp [ofStates, state, hi, State.bare] at hj
  rw [ofRules, (hready.addRules 0 hstates).2 i hi, or_iff_right hnone]
  constructor
  · rintro ⟨k, r, hk, henters, rfl, hw⟩
    exact ⟨r, by simpa using hk, henters, rfl, hw⟩
  · rintro ⟨r, hr, henters, ha, hw⟩
    obtain ⟨rule, atLineEnd⟩ := a
    exact ⟨rule, r, hr, henters, by simpa using ha, hw⟩

/-! ### Marks

Marks carry the numbers of rules and no other numbers.  The tables of the lexer rely on it. -/

/-- Entering a rule changes no mark. -/
theorem accept_enter (f : Fragment) (anchored : Bool) (nfa : Nfa) (s i : Nat) :
    ((enter f anchored nfa s).state i).accept = (nfa.state i).accept := by
  unfold enter
  cases anchored <;> simp

/-- Entering a rule from any number of lexer states changes no mark. -/
theorem accept_foldl_enter (f : Fragment) (anchored : Bool) (nfa : Nfa) (states : List Nat)
    (i : Nat) :
    ((states.foldl (enter f anchored) nfa).state i).accept = (nfa.state i).accept :=
  List.foldlRecOn states _ (motive := fun last : Nfa =>
    (last.state i).accept = (nfa.state i).accept) rfl fun last h s _ =>
      (accept_enter f anchored last s i).trans h

/-- **A rule is added** with one mark only, which is its own. -/
theorem accept_addRule {id i : Nat} {r : ResolvedRule} {a : Accept}
    (h : ((nfa.addRule id r).state i).accept = some a) :
    (nfa.state i).accept = some a ∨ a.rule = id := by
  obtain ⟨hkeeps, hbuilt⟩ := adds_addRuleBody nfa r
  rw [Nfa.addRule] at h
  generalize nfa.addRuleBody r = result at hkeeps hbuilt h
  obtain ⟨nfa₁, f⟩ := result
  dsimp only at h
  rw [accept_foldl_enter] at h
  by_cases hstop : i = f.stop
  · subst hstop
    rw [state_setAccept_self hbuilt.stop_lt] at h
    exact .inr (congrArg Accept.rule (Option.some.inj h)).symm
  · rw [state_setAccept_of_ne hstop] at h
    by_cases hlt : i < nfa.size
    · exact .inl (hkeeps.state_eq i hlt ▸ h)
    · rw [hbuilt.accept_eq_none i (not_lt.1 hlt)] at h
      cases h

/-- **The marks are those of the rules.** -/
theorem rule_lt_of_accept_addRules {rules : List ResolvedRule} {id i : Nat} {a : Accept}
    (h : ((nfa.addRules id rules).state i).accept = some a) :
    (nfa.state i).accept = some a ∨ a.rule < id + rules.length := by
  induction rules generalizing nfa id with
  | nil => exact .inl h
  | cons r rules ih =>
    rw [List.length_cons, Nat.add_comm rules.length, ← Nat.add_assoc]
    rcases ih h with h | h
    · rcases accept_addRule h with h | h
      · exact .inl h
      · exact .inr (by omega)
    · exact .inr h

/-- The number of each mark is that of a rule. -/
theorem rule_lt_of_accept_ofRules {count i : Nat} {rules : List ResolvedRule} {a : Accept}
    (h : ((ofRules count rules).state i).accept = some a) : a.rule < rules.length := by
  rcases rule_lt_of_accept_addRules h with h | h
  · rw [state_ofStates] at h
    cases h
  · rwa [Nat.zero_add] at h

/-- The automaton of all rules has edges to its own states only. -/
theorem wellFormed_ofRules {count : Nat} {rules : List ResolvedRule}
    (hstates : ∀ r ∈ rules, ∀ s ∈ r.states, s < count) : (ofRules count rules).WellFormed :=
  ((ready_ofStates count).addRules 0 hstates).1.wellFormed

theorem le_size_ofRules {count : Nat} {rules : List ResolvedRule}
    (hstates : ∀ r ∈ rules, ∀ s ∈ r.states, s < count) : 2 * count ≤ (ofRules count rules).size :=
  ((ready_ofStates count).addRules 0 hstates).1.le_size

end Nfa

end FrontEnd
