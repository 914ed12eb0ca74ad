import FrontEnd.Lexer.Build
import FrontEnd.Proofs.Names
import Mathlib.Data.List.Basic

/-!
# Resolved rules

A build succeeds only when each rule is resolved: its patterns are read, and the references of its
scope stand for lexer states.

## Main Definitions

* `LexerDefinition.Reachable` — a definition that the operations have built
* `LexerDefinition.RefersTo`, `LexerDefinition.InScope` — the lexer states that a reference and a
  scope stand for
* `LexerDefinition.Resolved` — what is known about a rule that has been resolved

## Main Statements

* `LexerDefinition.resolved_of_resolve` — resolving a rule gives its patterns and its lexer states
* `LexerDefinition.exists_resolved`, `LexerDefinition.exists_rule` — the rules and the resolved
  rules have the same numbers

## Design Notes

Rules are resolved one by one, with their numbers, and the first fault ends the build.  So when a
build succeeds, the list of the resolved rules has an entry for each rule, and what is known of an
entry comes from the stages that resolving it has passed.
-/

namespace FrontEnd

namespace LexerDefinition

/-- A definition that the operations have built, whether they have failed or not. -/
inductive Reachable : LexerDefinition → Prop
  | empty : Reachable empty
  | rule {d : LexerDefinition} (rule : Rule) : Reachable d → Reachable (d.addRule rule).2
  | state {d : LexerDefinition} (name : String) : Reachable d → Reachable (d.addState name).2
  | pattern {d : LexerDefinition} (name pattern : String) :
    Reachable d → Reachable (d.namePattern name pattern).2
  | flags {d : LexerDefinition} (flags : Flags) : Reachable d → Reachable (d.setFlags flags)

variable {d : LexerDefinition}

/-- The reference stands for a lexer state. -/
def RefersTo (d : LexerDefinition) (state : Nat) : StateRef → Prop
  | .handle h => h = state
  | .name name => d.stateName? state = some name

/-- The lexer state belongs to a scope. -/
def InScope (d : LexerDefinition) (state : Nat) : RuleScope → Prop
  | .all => state < d.numStates
  | .states refs => ∃ ref ∈ refs, d.RefersTo state ref

/-- The end pattern that has been read for a rule. -/
def StopRead (d : LexerDefinition) : Option String → Option Regex → Prop
  | none, none => True
  | some pattern, some stop => Regex.parse d.flags d.named pattern = .ok stop
  | _, _ => False

/-- The patterns of a rule have been read, and its lexer states are those of its scope. -/
structure Resolved (d : LexerDefinition) (rule : Rule) (r : ResolvedRule) : Prop where
  start : Regex.parse d.flags d.named rule.pattern = .ok r.start
  stop : d.StopRead rule.stop r.stop
  mem_states_iff : ∀ s, s ∈ r.states ↔ d.InScope s rule.scope

/-! ### Lexer states

Handles and names are two ways to refer to a lexer state, and they agree as long as there are no
more states than handles. -/

/-- A name and its handle lead to each other. -/
theorem stateId?_eq_some_iff (hwidth : d.numStates < 65536) {name : String} {s : Nat} :
    d.stateId? name = some s ↔ d.stateName? s = some name := by
  unfold stateId? stateName?
  rw [Option.map_eq_some_iff, ← NameList.indexOf?_eq_some_iff]
  constructor
  · rintro ⟨i, hi, rfl⟩
    rwa [narrow16_of_lt (Nat.lt_trans (NameList.lt_size_of_indexOf? hi) hwidth)]
  · intro hs
    exact ⟨s, hs, narrow16_of_lt (Nat.lt_trans (NameList.lt_size_of_indexOf? hs) hwidth)⟩

/-- A reference is resolved to a lexer state. -/
theorem lt_numStates_of_resolveState {rule s : Nat} {ref : StateRef}
    (h : d.resolveState rule ref = .ok s) : s < d.numStates := by
  cases ref with
  | handle i =>
    simp only [resolveState] at h
    split at h
    · next hi =>
      obtain rfl := Except.ok.inj h
      exact hi
    · cases h
  | name name =>
    simp only [resolveState] at h
    split at h
    · next i hi =>
      obtain rfl := Except.ok.inj h
      obtain ⟨k, hk, rfl⟩ := Option.map_eq_some_iff.1 hi
      exact Nat.lt_of_le_of_lt (narrow16_le k) (NameList.lt_size_of_indexOf? hk)
    · cases h

/-- The lexer state that a reference is resolved to is the one it stands for. -/
theorem refersTo_iff_of_resolveState (hwidth : d.numStates < 65536) {rule s : Nat} {ref : StateRef}
    (h : d.resolveState rule ref = .ok s) (t : Nat) : d.RefersTo t ref ↔ t = s := by
  cases ref with
  | handle i =>
    simp only [resolveState] at h
    split at h
    · obtain rfl := Except.ok.inj h
      exact eq_comm
    · cases h
  | name name =>
    simp only [resolveState] at h
    split at h
    · next i hi =>
      obtain rfl := Except.ok.inj h
      show d.stateName? t = some name ↔ t = i
      rw [← stateId?_eq_some_iff hwidth, hi, Option.some.injEq, eq_comm]
    · cases h

/-- A state that is named again is not entered again. -/
theorem mem_appendNew_iff {known : List Nat} {s t : Nat} :
    t ∈ (if known.contains s then known else known ++ [s]) ↔ t ∈ known ∨ t = s := by
  split
  · next hcontains =>
    have hs : s ∈ known := by simpa using hcontains
    refine (or_iff_left_of_imp ?_).symm
    rintro rfl
    exact hs
  · simp

/-- References are resolved to known lexer states. -/
theorem lt_numStates_of_resolveStates {rule : Nat} {refs : List StateRef} {known states : List Nat}
    (hknown : ∀ s ∈ known, s < d.numStates) (h : d.resolveStates rule known refs = .ok states) :
    ∀ s ∈ states, s < d.numStates := by
  induction refs generalizing known with
  | nil =>
    obtain rfl := Except.ok.inj h
    exact hknown
  | cons ref refs ih =>
    unfold resolveStates at h
    split at h
    · cases h
    · next s hs =>
      refine ih ?_ h
      intro t ht
      rcases mem_appendNew_iff.1 ht with ht | rfl
      · exact hknown t ht
      · exact lt_numStates_of_resolveState hs

/-- A list of references stands for the states of all of them. -/
theorem mem_resolveStates_iff (hwidth : d.numStates < 65536) {rule : Nat} {refs : List StateRef}
    {known states : List Nat} (h : d.resolveStates rule known refs = .ok states) (t : Nat) :
    t ∈ states ↔ t ∈ known ∨ ∃ ref ∈ refs, d.RefersTo t ref := by
  induction refs generalizing known with
  | nil =>
    obtain rfl := Except.ok.inj h
    simp
  | cons ref refs ih =>
    unfold resolveStates at h
    split at h
    · cases h
    · next s hs =>
      rw [ih h, mem_appendNew_iff, or_assoc, ← refersTo_iff_of_resolveState hwidth hs t]
      simp

/-- A scope is resolved to known lexer states only. -/
theorem lt_numStates_of_resolveScope {rule : Nat} {scope : RuleScope} {states : List Nat}
    (h : d.resolveScope rule scope = .ok states) : ∀ s ∈ states, s < d.numStates := by
  cases scope with
  | all =>
    obtain rfl := Except.ok.inj h
    intro s hs
    exact Nat.lt_of_lt_of_le (List.mem_range.1 hs) (narrow16_le _)
  | states refs => exact lt_numStates_of_resolveStates (by simp) h

/-- A destination is resolved to a change that leads to a lexer state. -/
theorem lt_numStates_of_resolveDestination {rule s : Nat} {destination : Destination}
    {change : StateChange} (h : d.resolveDestination rule destination = .ok change)
    (hs : change = .goto s ∨ change = .push s) : s < d.numStates := by
  cases destination with
  | stay =>
    obtain rfl := Except.ok.inj h
    simp at hs
  | pop =>
    obtain rfl := Except.ok.inj h
    simp at hs
  | goto state =>
    obtain ⟨t, ht, rfl⟩ := exists_of_map_eq_ok h
    obtain rfl : t = s := by simpa using hs
    exact lt_numStates_of_resolveState ht
  | push state =>
    obtain ⟨t, ht, rfl⟩ := exists_of_map_eq_ok h
    obtain rfl : t = s := by simpa using hs
    exact lt_numStates_of_resolveState ht

/-- A scope is resolved to exactly the lexer states that it stands for, as long as their numbers
fit. -/
theorem mem_resolveScope_iff (hwidth : d.numStates < 65536) {rule : Nat} {scope : RuleScope}
    {states : List Nat} (h : d.resolveScope rule scope = .ok states) (t : Nat) :
    t ∈ states ↔ d.InScope t scope := by
  cases scope with
  | all =>
    obtain rfl := Except.ok.inj h
    have hnarrow : narrow16 d.states.size = d.numStates := narrow16_of_lt hwidth
    simp [hnarrow, InScope]
  | states refs => simpa [InScope] using mem_resolveStates_iff hwidth h t

/-! ### Rules

The stages of resolving a rule, the list of all rules, and what a successful build says about each
of them. -/

/-- A pattern that is read is parsed. -/
theorem parse_of_readPattern {rule : Nat} {pattern : String} {r : Regex}
    (h : d.readPattern rule pattern = .ok r) : Regex.parse d.flags d.named pattern = .ok r := by
  unfold readPattern at h
  split at h
  · next hparse => rw [hparse, ← Except.ok.inj h]
  · cases h

/-- An end pattern that is read is parsed, too, or there is none. -/
theorem stopRead_of_readStop {rule : Nat} {pattern : String} {start : Regex}
    {stop : Option String} {r : Option Regex} (h : d.readStop rule pattern start stop = .ok r) :
    d.StopRead stop r := by
  cases stop with
  | none =>
    obtain rfl := Except.ok.inj h
    trivial
  | some stop =>
    simp only [readStop] at h
    split at h
    · cases h
    split at h
    · cases h
    next hread =>
    split at h
    · cases h
    obtain rfl := Except.ok.inj h
    exact parse_of_readPattern hread

/-- What resolving a rule has read, stage by stage. -/
theorem stages_of_resolve {id : Nat} {rule : Rule} {r : ResolvedRule}
    (h : d.resolve id rule = .ok r) :
    d.readPattern id rule.pattern = .ok r.start ∧
      d.readStop id rule.pattern r.start rule.stop = .ok r.stop ∧
      d.resolveScope id rule.scope = .ok r.states ∧
      d.resolveDestination id rule.destination = .ok r.change := by
  unfold resolve at h
  split at h
  · cases h
  next start hstart =>
  split at h
  · cases h
  next stop hstop =>
  split at h
  · cases h
  split at h
  · cases h
  next states hstates =>
  split at h
  · cases h
  next change hchange =>
  obtain rfl := Except.ok.inj h
  exact ⟨hstart, hstop, hstates, hchange⟩

/-- **Resolving a rule** reads its patterns and gives the lexer states of its scope. -/
theorem resolved_of_resolve (hwidth : d.numStates < 65536) {id : Nat} {rule : Rule}
    {r : ResolvedRule} (h : d.resolve id rule = .ok r) : d.Resolved rule r := by
  obtain ⟨hstart, hstop, hstates, -⟩ := stages_of_resolve h
  exact ⟨parse_of_readPattern hstart, stopRead_of_readStop hstop,
    mem_resolveScope_iff hwidth hstates⟩

/-- The entry of a rule is what resolving it gives. -/
theorem getElem?_of_resolveFrom {id : Nat} {rules : List Rule} {resolved : List ResolvedRule}
    (h : d.resolveFrom id rules = .ok resolved) {k : Nat} {r : ResolvedRule} :
    resolved[k]? = some r ↔ ∃ rule, rules[k]? = some rule ∧ d.resolve (id + k) rule = .ok r := by
  induction rules generalizing id resolved k with
  | nil =>
    obtain rfl := Except.ok.inj h
    simp
  | cons rule rules ih =>
    unfold resolveFrom at h
    split at h
    · cases h
    · next s hs =>
      obtain ⟨rest, hrest, rfl⟩ := exists_of_map_eq_ok h
      cases k with
      | zero => simp [hs]
      | succ k =>
        rw [List.getElem?_cons_succ, List.getElem?_cons_succ, ih hrest, Nat.add_assoc,
          Nat.add_comm 1 k]

/-- There is one entry for each rule. -/
theorem length_of_resolveFrom {id : Nat} {rules : List Rule} {resolved : List ResolvedRule}
    (h : d.resolveFrom id rules = .ok resolved) : resolved.length = rules.length := by
  induction rules generalizing id resolved with
  | nil =>
    obtain rfl := Except.ok.inj h
    rfl
  | cons rule rules ih =>
    unfold resolveFrom at h
    split at h
    · cases h
    · obtain ⟨rest, hrest, rfl⟩ := exists_of_map_eq_ok h
      rw [List.length_cons, List.length_cons, ih hrest]

/-- Each rule of a definition that is built has been resolved. -/
theorem exists_resolved {resolved : List ResolvedRule} (hwidth : d.numStates < 65536)
    (h : d.resolveFrom 0 d.allRules = .ok resolved) {id : Nat} {rule : Rule}
    (hrule : d.allRules[id]? = some rule) : ∃ r, resolved[id]? = some r ∧ d.Resolved rule r := by
  have hlt : id < resolved.length := by
    rw [length_of_resolveFrom h]
    exact (List.getElem?_eq_some_iff.1 hrule).choose
  obtain ⟨rule', hrule', hresolve⟩ :=
    (getElem?_of_resolveFrom h).1 (List.getElem?_eq_getElem hlt)
  obtain rfl : rule = rule' := Option.some.inj (hrule.symm.trans hrule')
  exact ⟨_, List.getElem?_eq_getElem hlt, resolved_of_resolve hwidth hresolve⟩

/-- Each entry comes from a rule. -/
theorem exists_rule {resolved : List ResolvedRule} (hwidth : d.numStates < 65536)
    (h : d.resolveFrom 0 d.allRules = .ok resolved) {id : Nat} {r : ResolvedRule}
    (hr : resolved[id]? = some r) : ∃ rule, d.allRules[id]? = some rule ∧ d.Resolved rule r := by
  obtain ⟨rule, hrule, hresolve⟩ := (getElem?_of_resolveFrom h).1 hr
  exact ⟨rule, hrule, resolved_of_resolve hwidth hresolve⟩

/-- Rules that have been resolved are active in known lexer states. -/
theorem lt_numStates_of_resolved {resolved : List ResolvedRule}
    (h : d.resolveFrom 0 d.allRules = .ok resolved) :
    ∀ r ∈ resolved, ∀ s ∈ r.states, s < d.numStates := by
  intro r hr
  obtain ⟨id, hid⟩ := List.mem_iff_getElem?.1 hr
  obtain ⟨rule, -, hresolve⟩ := (getElem?_of_resolveFrom h).1 hid
  exact lt_numStates_of_resolveScope (stages_of_resolve hresolve).2.2.1

/-- Rules that have been resolved lead to known lexer states. -/
theorem lt_numStates_of_change {resolved : List ResolvedRule}
    (h : d.resolveFrom 0 d.allRules = .ok resolved) {r : ResolvedRule} (hr : r ∈ resolved) {s : Nat}
    (hs : r.change = .goto s ∨ r.change = .push s) : s < d.numStates := by
  obtain ⟨id, hid⟩ := List.mem_iff_getElem?.1 hr
  obtain ⟨rule, -, hresolve⟩ := (getElem?_of_resolveFrom h).1 hid
  exact lt_numStates_of_resolveDestination (stages_of_resolve hresolve).2.2.2 hs

/-- A lexer that has been built is assembled from the resolved rules. -/
theorem exists_of_build {l : Lexer} (h : d.build = .ok l) :
    ∃ resolved, d.resolveFrom 0 d.allRules = .ok resolved ∧ d.assemble resolved = l :=
  exists_of_map_eq_ok h

end LexerDefinition

end FrontEnd
