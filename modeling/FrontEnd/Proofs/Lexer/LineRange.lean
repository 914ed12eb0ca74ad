import FrontEnd.Proofs.Lexer.Match
import Mathlib.Data.Nat.SuccPred
import Mathlib.Order.SuccPred.Archimedean

/-!
# Ranges up to the end of a line

A rule with an end pattern goes on to the first match of that pattern.  Where the end pattern is
anchored at the end of a line, the anchor is not looked at while the first match is searched, but
only when it has been found.  So what the end pattern matches inside a line stops the rule, and then
the rule does not match there, although a later place may be at the end of a line.

## Main Definitions

* `EndsMatch` — a match that begins behind one offset ends at another one
* `EndFound` — the first match of the end pattern ends there, at the end of a line
* `EndMeant` — the first match of the end pattern that ends at the end of a line ends there
* `LexerDefinition.IsLineRange` — a definition with one such rule

## Main Statements

* `mem_untilFirst_iff_isLeast` — the first match in terms of offsets
* `LexerDefinition.isLongest_lineRange` — what is found, and when it is what is meant
-/

namespace FrontEnd

variable {input : List UInt8} {start stop : Nat}

/-! ### Offsets

Strings of a language are parts of the input between two offsets.  The first occurrence of an end
pattern is a least offset. -/

/-- A match of the language that begins at or behind the first offset ends at the second one. -/
def EndsMatch (l : Language UInt8) (input : List UInt8) (start stop : Nat) : Prop :=
  start ≤ stop ∧ stop ≤ input.length ∧ ∃ v ∈ l, v <:+ (input.drop start).take (stop - start)

/-- The bytes between two offsets are split at an offset between the two. -/
theorem mem_mul_iff_exists_offset {l m : Language UInt8} (hle : start ≤ stop)
    (hstop : stop ≤ input.length) :
    (input.drop start).take (stop - start) ∈ l * m ↔
      ∃ middle, start ≤ middle ∧ middle ≤ stop ∧ (input.drop start).take (middle - start) ∈ l ∧
        (input.drop middle).take (stop - middle) ∈ m := by
  rw [Language.mem_mul]
  constructor
  · rintro ⟨u, hu, v, hv, happend⟩
    have hlength : u.length + v.length = stop - start := by
      rw [← List.length_append, happend, List.length_take_of_le (by rw [List.length_drop]; omega)]
    refine ⟨start + u.length, Nat.le_add_right _ _, by omega, ?_, ?_⟩
    · have htake := congrArg (List.take u.length) happend
      rw [List.take_left, List.take_take, Nat.min_eq_left (by omega)] at htake
      rwa [Nat.add_sub_cancel_left, ← htake]
    · have hdrop := congrArg (List.drop u.length) happend
      rw [List.drop_left, List.drop_take, List.drop_drop] at hdrop
      rwa [← Nat.sub_sub, ← hdrop]
  · rintro ⟨middle, hstart, hmiddle, hu, hv⟩
    refine ⟨_, hu, _, hv, ?_⟩
    have hsplit : stop - start = (middle - start) + (stop - middle) := by omega
    rw [hsplit, List.take_add, List.drop_drop, Nat.add_sub_cancel' hstart]

/-- **The first match in terms of offsets**: no match ends at an earlier one. -/
theorem mem_untilFirst_iff_isLeast {l : Language UInt8} (hle : start ≤ stop)
    (hstop : stop ≤ input.length) :
    (input.drop start).take (stop - start) ∈ untilFirst l ↔
      IsLeast {p | EndsMatch l input start p} stop := by
  have hlength : ((input.drop start).take (stop - start)).length = stop - start :=
    List.length_take_of_le (by rw [List.length_drop]; omega)
  constructor
  · rintro ⟨hmatch, hfirst⟩
    refine ⟨⟨hle, hstop, hmatch⟩, ?_⟩
    rintro p ⟨hp, -, v, hv, hsuffix⟩
    by_contra hlt
    -- an earlier end belongs to a proper prefix
    refine hfirst _ (List.take_prefix_take_left (by omega : p - start ≤ stop - start)) ?_ v hv
      hsuffix
    intro heq
    have hlengths := congrArg List.length heq
    rw [hlength, List.length_take, List.length_drop] at hlengths
    omega
  · rintro ⟨⟨-, -, hmatch⟩, hleast⟩
    refine ⟨hmatch, ?_⟩
    rintro u hu hne v hv hsuffix
    have hlt : u.length < stop - start :=
      hlength ▸ Nat.lt_of_le_of_ne hu.length_le fun heq => hne (hu.eq_of_length heq)
    have hu' : u = (input.drop start).take u.length := by
      conv_lhs => rw [List.prefix_iff_eq_take.1 hu, List.take_take, Nat.min_eq_left hlt.le]
    have hends : EndsMatch l input start (start + u.length) := by
      refine ⟨Nat.le_add_right _ _, by omega, v, hv, ?_⟩
      rwa [Nat.add_sub_cancel_left, ← hu']
    have hstop' := hleast hends
    omega

/-! ### Ends of a range

Two sets of offsets are compared: where a range ends that stops at the first match of its end
pattern, and where it would end if the first match at the end of a line were meant.  What is found
is meant, and the converse fails exactly when a match inside a line comes first. -/

/-- Behind a match of the first pattern, the first match of the last pattern ends at the offset, and
the offset is at the end of a line. -/
def EndFound (first last : Regex) (input : List UInt8) (start stop : Nat) : Prop :=
  ∃ middle, start ≤ middle ∧ (input.drop start).take (middle - start) ∈ first.node.language ∧
    IsLeast {p | EndsMatch last.node.language input middle p} stop ∧ EndsLine input stop

/-- Behind a match of the first pattern, the offset is the first one at the end of a line where a
match of the last pattern ends. -/
def EndMeant (first last : Regex) (input : List UInt8) (start stop : Nat) : Prop :=
  ∃ middle, start ≤ middle ∧ (input.drop start).take (middle - start) ∈ first.node.language ∧
    IsLeast {p | EndsMatch last.node.language input middle p ∧ EndsLine input p} stop

variable {first last : Regex}

/-- What is found is meant: no match comes before it at all. -/
theorem EndFound.meant (h : EndFound first last input start stop) :
    EndMeant first last input start stop := by
  obtain ⟨middle, hle, hfirst, hleast, hline⟩ := h
  exact ⟨middle, hle, hfirst, ⟨hleast.1, hline⟩, fun p hp => hleast.2 hp.1⟩

/-- A range ends behind its beginning. -/
theorem EndFound.le (h : EndFound first last input start stop) : start ≤ stop := by
  obtain ⟨middle, hle, -, ⟨⟨hle', -⟩, -⟩, -⟩ := h
  exact hle.trans hle'

/-- An end that is found is one of a string of both patterns, at the end of a line. -/
theorem endFound_add_iff {length : Nat} :
    EndFound first last input start (start + length) ↔ start + length ≤ input.length ∧
      (input.drop start).take length ∈ first.node.language * untilFirst last.node.language ∧
      EndsLine input (start + length) := by
  have hlength : length = start + length - start := (Nat.add_sub_cancel_left _ _).symm
  constructor
  · rintro ⟨middle, hmiddle, hfirst, hleast, hends⟩
    obtain ⟨hle, hstop, -⟩ := hleast.1
    refine ⟨hstop, ?_, hends⟩
    rw [hlength, mem_mul_iff_exists_offset (Nat.le_add_right _ _) hstop]
    exact ⟨middle, hmiddle, hle, hfirst, (mem_untilFirst_iff_isLeast hle hstop).2 hleast⟩
  · rintro ⟨hstop, hw, hends⟩
    rw [hlength, mem_mul_iff_exists_offset (Nat.le_add_right _ _) hstop] at hw
    obtain ⟨middle, hmiddle, hle, hfirst, hlast⟩ := hw
    exact ⟨middle, hmiddle, hfirst, (mem_untilFirst_iff_isLeast hle hstop).1 hlast, hends⟩

/-- A range ends in the input. -/
theorem EndMeant.le_length (h : EndMeant first last input start stop) : stop ≤ input.length := by
  obtain ⟨middle, -, -, ⟨⟨-, hle, -⟩, -⟩, -⟩ := h
  exact hle

/-- Where an end is meant, there is a greatest one. -/
theorem EndMeant.exists_isGreatest (h : EndMeant first last input start stop) :
    ∃ p, IsGreatest {p | EndMeant first last input start p} p :=
  BddAbove.exists_isGreatest_of_nonempty ⟨input.length, fun _ => EndMeant.le_length⟩ ⟨stop, h⟩

/-- All ends that are found are meant.  The last one that is found is the last one that is meant
exactly when that one is found. -/
theorem isLongest_endMeant_iff {o : Option (Nat × Nat)}
    (h : IsLongest (fun rule p => rule = 0 ∧ EndFound first last input start p) o) :
    IsLongest (fun rule p => rule = 0 ∧ EndMeant first last input start p) o ↔
      ∀ p, IsGreatest {p | EndMeant first last input start p} p →
        EndFound first last input start p := by
  cases o with
  | none =>
    constructor
    · exact fun hmeant p hp => (hmeant 0 p ⟨rfl, hp.1⟩).elim
    · rintro hfound rule p ⟨-, hmeant⟩
      obtain ⟨q, hq⟩ := hmeant.exists_isGreatest
      exact h 0 q ⟨rfl, hfound q hq⟩
  | some result =>
    obtain ⟨rule, p⟩ := result
    obtain ⟨⟨rfl, hfound⟩, hlongest⟩ := h
    have hgreatest : IsLongest (fun rule p => rule = 0 ∧ EndMeant first last input start p)
        (some (0, p)) ↔ IsGreatest {p | EndMeant first last input start p} p := by
      constructor
      · rintro ⟨⟨-, hp⟩, hlast⟩
        refine ⟨hp, fun q hq => ?_⟩
        rcases hlast 0 q ⟨rfl, hq⟩ with hlt | ⟨rfl, -⟩
        · exact hlt.le
        · exact le_rfl
      · rintro ⟨hp, hlast⟩
        refine ⟨⟨rfl, hp⟩, ?_⟩
        rintro rule q ⟨rfl, hq⟩
        exact (Nat.lt_or_eq_of_le (hlast hq)).imp_right fun heq => ⟨heq, le_rfl⟩
    rw [hgreatest]
    constructor
    · intro hp q hq
      rwa [hq.unique hp]
    · intro hall
      obtain ⟨q, hq⟩ := hfound.meant.exists_isGreatest
      rcases hlongest 0 q ⟨rfl, hall q hq⟩ with hlt | ⟨rfl, -⟩
      · exact (Nat.not_lt.2 (hq.2 hfound.meant) hlt).elim
      · exact hq

/-! ### Definitions with one range

One rule without options is all that the lexer has, so its longest match is the last offset at which
the range can end. -/

/-- A definition with one rule, which is active in the initial state: a range from a pattern that is
not anchored to a pattern that is anchored at the end of a line. -/
structure LexerDefinition.IsLineRange (d : LexerDefinition) (first last : Regex) : Prop where
  skipBlanks : d.flags.skipBlanks = false
  exists_rule : ∃ rule pattern states, d.rules = [rule] ∧ rule.stop = some pattern ∧
    Regex.parse d.flags d.named rule.pattern = .ok first ∧
    Regex.parse d.flags d.named pattern = .ok last ∧
    d.resolveScope 0 rule.scope = .ok states ∧ initialState ∈ states
  first_atLineStart : first.atLineStart = false
  last_atLineEnd : last.atLineEnd = true

namespace LexerDefinition

variable {d : LexerDefinition} {l : Lexer}

/-- The one rule is resolved to the two patterns. -/
theorem IsLineRange.exists_resolved (h : d.IsLineRange first last) {resolved : List ResolvedRule}
    (hresolved : d.resolveFrom 0 d.allRules = .ok resolved) :
    ∃ r, resolved = [r] ∧ r.start = first ∧ r.stop = some last ∧ initialState ∈ r.states := by
  obtain ⟨rule, pattern, states, hrules, hstop, hfirst, hlast, hstates, hinitial⟩ := h.exists_rule
  have hall : d.allRules = [rule] := by
    unfold allRules
    rw [h.skipBlanks, hrules]
    rfl
  rw [hall] at hresolved
  obtain ⟨r, rfl⟩ := List.length_eq_one_iff.1 (length_of_resolveFrom hresolved)
  obtain ⟨rule', hrule, hresolve⟩ :=
    (getElem?_of_resolveFrom hresolved).1 (show [r][0]? = some r from rfl)
  obtain rfl : rule = rule' := Option.some.inj hrule
  obtain ⟨hread, hreadStop, hscope, -⟩ := stages_of_resolve hresolve
  have hstart : first = r.start := Except.ok.inj (hfirst.symm.trans (parse_of_readPattern hread))
  have hstopRead := stopRead_of_readStop hreadStop
  obtain rfl : states = r.states := Except.ok.inj (hstates.symm.trans hscope)
  refine ⟨r, rfl, hstart.symm, ?_, hinitial⟩
  rw [hstop] at hstopRead
  cases hr : r.stop with
  | none =>
    rw [hr] at hstopRead
    exact hstopRead.elim
  | some last' =>
    rw [hr] at hstopRead
    exact congrArg some (Except.ok.inj (Eq.trans (Eq.symm hstopRead) hlast))

/-- What the automaton of the one rule accepts behind an offset are the ends that are found. -/
theorem IsLineRange.matchesAhead_iff (h : d.IsLineRange first last) {r : ResolvedRule}
    (hresolved : d.resolveFrom 0 d.allRules = .ok [r]) (hstart : start ≤ input.length)
    {rule length : Nat} :
    (Nfa.ofRules d.numStates [r]).MatchesAhead
        ((Nfa.ofRules d.numStates [r]).closure [entryState input start initialState])
        (input.drop start) rule length ↔
      rule = 0 ∧ EndFound first last input start (start + length) := by
  obtain ⟨r', heq, rfl, hstop, hinitial⟩ := h.exists_resolved hresolved
  obtain rfl : r = r' := by simpa using heq
  have hstates := lt_numStates_of_resolved hresolved
  have hentry := entryState_lt input start (hstates r List.mem_cons_self _ hinitial)
  have hlanguage : r.language = r.start.node.language * untilFirst last.node.language := by
    unfold ResolvedRule.language
    rw [hstop]
  have hline : r.atLineEnd = true := by
    unfold ResolvedRule.atLineEnd
    rw [hstop]
    exact h.last_atLineEnd
  have henters : r.Enters (entryState input start initialState) := by
    refine (enters_entryState_iff hstart).2 ⟨hinitial, fun hanchored => ?_⟩
    rw [show r.atLineStart = false from h.first_atLineStart] at hanchored
    cases hanchored
  rw [Nfa.matchesAhead_ofRules_iff hstates hentry, List.length_drop, endFound_add_iff, ← hlanguage]
  constructor
  · rintro ⟨hlength, r', hr', -, hw, hends⟩
    obtain ⟨rfl, rfl⟩ : rule = 0 ∧ r = r' := by
      rcases rule with _ | rule
      · exact ⟨rfl, Option.some.inj hr'⟩
      · cases hr'
    have hle : start + length ≤ input.length := by omega
    refine ⟨rfl, hle, hw, (atLineBreak_drop hle).1 ?_⟩
    rw [← List.drop_drop]
    exact hends hline
  · rintro ⟨rfl, hle, hw, hends⟩
    refine ⟨by omega, r, rfl, henters, hw, fun _ => ?_⟩
    rw [List.drop_drop]
    exact (atLineBreak_drop hle).2 hends

/-- **What a range up to the end of a line finds.**  The matches go up to the first match of the end
pattern, wherever that one is, and those that do not end at the end of a line are dropped; the
longest of the others is found.  It is the longest match up to the first match of the end pattern at
the end of a line exactly when no match inside the line has stopped that one. -/
theorem isLongest_lineRange (h : d.IsLineRange first last) (hbuild : d.build = .ok l)
    (input : List UInt8) {start : Nat} (hstart : start ≤ input.length) :
    IsLongest (fun rule p => rule = 0 ∧ EndFound first last input start p)
        (l.longestMatch input start initialState) ∧
      (IsLongest (fun rule p => rule = 0 ∧ EndMeant first last input start p)
          (l.longestMatch input start initialState) ↔
        ∀ p, IsGreatest {p | EndMeant first last input start p} p →
          EndFound first last input start p) := by
  obtain ⟨resolved, hresolved, rfl⟩ := exists_of_build hbuild
  obtain ⟨r, rfl, -, -, hinitial⟩ := h.exists_resolved hresolved
  have hstate := lt_numStates_of_resolved hresolved r List.mem_cons_self _ hinitial
  have hfound : IsLongest (fun rule p => rule = 0 ∧ EndFound first last input start p)
      ((d.assemble [r]).longestMatch input start initialState) := by
    apply (Lexer.isLongest_matchesAhead hresolved input start hstate).shift start
    intro rule stop
    constructor
    · rintro ⟨hrule, hends⟩
      obtain ⟨length, rfl⟩ := Nat.exists_eq_add_of_le hends.le
      exact ⟨length, rfl, (h.matchesAhead_iff hresolved hstart).2 ⟨hrule, hends⟩⟩
    · rintro ⟨length, rfl, hmatch⟩
      exact (h.matchesAhead_iff hresolved hstart).1 hmatch
  exact ⟨hfound, isLongest_endMeant_iff hfound⟩

/-- From an `a` to a `b` at the end of a line. -/
def letterRange : LexerDefinition :=
  { LexerDefinition.empty with rules := [Rule.range "a" "b$" 300] }

/-- In the first input the range ends at the first match.  In the second one this match is inside of
a line, and nothing is found. -/
theorem exists_build_letterRange :
    ∃ l, letterRange.build = .ok l ∧
      l.longestMatch (bytesOf "acb\nab") 0 initialState = some (0, 3) ∧
      l.longestMatch (bytesOf "abcb") 0 initialState = none := by
  have hmatches : letterRange.build.map (fun l =>
      (l.longestMatch (bytesOf "acb\nab") 0 initialState,
        l.longestMatch (bytesOf "abcb") 0 initialState)) = .ok (some (0, 3), none) := by
    decide +kernel
  obtain ⟨l, hbuild, hmatches⟩ := exists_of_map_eq_ok hmatches
  obtain ⟨hends, hstopped⟩ := Prod.mk.inj hmatches
  exact ⟨l, hbuild, hends, hstopped⟩

/-- The definition is one range up to the end of a line, between two letters. -/
theorem exists_isLineRange_letterRange :
    ∃ first last, letterRange.IsLineRange first last ∧ [0x61] ∈ first.node.language ∧
      [0x62] ∈ last.node.language := by
  have hread : (match Regex.parse letterRange.flags letterRange.named "a",
        Regex.parse letterRange.flags letterRange.named "b$" with
      | .ok ⟨.set s, anchored, _⟩, .ok ⟨.set t, _, atEnd⟩ =>
        some (s.contains 0x61, anchored, t.contains 0x62, atEnd)
      | _, _ => none) = some (true, false, true, true) := by decide +kernel
  split at hread
  · next s anchored _ t _ atEnd hfirst hlast =>
    simp only [Option.some.injEq, Prod.mk.injEq] at hread
    obtain ⟨hs, hanchored, ht, hatEnd⟩ := hread
    have hrule : ∃ rule pattern states, letterRange.rules = [rule] ∧ rule.stop = some pattern ∧
        Regex.parse letterRange.flags letterRange.named rule.pattern = .ok _ ∧
        Regex.parse letterRange.flags letterRange.named pattern = .ok _ ∧
        letterRange.resolveScope 0 rule.scope = .ok states ∧ initialState ∈ states :=
      ⟨_, _, _, rfl, rfl, hfirst, hlast, rfl, List.mem_singleton_self _⟩
    exact ⟨_, _, ⟨rfl, hrule, hanchored, hatEnd⟩, ⟨_, hs, rfl⟩, ⟨_, ht, rfl⟩⟩
  · cases hread

/-- A line that ends with the first `b` is matched up to its end. -/
theorem isLongest_lineRange_acb : ∃ first last, letterRange.IsLineRange first last ∧
    IsLongest (fun rule p => rule = 0 ∧ EndFound first last (bytesOf "acb\nab") 0 p)
      (some (0, 3)) := by
  obtain ⟨first, last, hrange, -, -⟩ := exists_isLineRange_letterRange
  obtain ⟨l, hbuild, hends, -⟩ := exists_build_letterRange
  refine ⟨first, last, hrange, ?_⟩
  rw [← hends]
  exact (isLongest_lineRange hrange hbuild (bytesOf "acb\nab") (Nat.zero_le _)).1

/-- A `b` inside the line stops the rule for good: nothing is found, although the first `b` at the
end of the line is behind it. -/
theorem not_isLongest_endMeant_abcb : ∃ l first last, letterRange.build = .ok l ∧
    letterRange.IsLineRange first last ∧
    IsGreatest {p | EndMeant first last (bytesOf "abcb") 0 p} 4 ∧
    ¬ IsLongest (fun rule p => rule = 0 ∧ EndMeant first last (bytesOf "abcb") 0 p)
      (l.longestMatch (bytesOf "abcb") 0 initialState) := by
  obtain ⟨first, last, hrange, hfirst, hlast⟩ := exists_isLineRange_letterRange
  obtain ⟨l, hbuild, -, hstopped⟩ := exists_build_letterRange
  have hbytes : bytesOf "abcb" = [0x61, 0x62, 0x63, 0x62] := by decide +kernel
  have hmeant : EndMeant first last (bytesOf "abcb") 0 4 := by
    rw [hbytes]
    refine ⟨1, Nat.zero_le _, hfirst, ⟨⟨by decide, by decide, _, hlast, by decide⟩, .inl rfl⟩, ?_⟩
    rintro p ⟨-, rfl | hbreak⟩
    · exact le_rfl
    · -- there is no line break
      exact absurd (List.mem_of_getElem? hbreak) (by decide)
  refine ⟨l, first, last, hbuild, hrange, ⟨hmeant, fun p hp => ?_⟩, fun h => ?_⟩
  · have hle := EndMeant.le_length hp
    rwa [hbytes] at hle
  · rw [hstopped] at h
    exact h 0 4 ⟨rfl, hmeant⟩

end LexerDefinition

end FrontEnd
