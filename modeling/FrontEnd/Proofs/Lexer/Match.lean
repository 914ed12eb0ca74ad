import FrontEnd.Proofs.Lexer.Resolve
import FrontEnd.Proofs.Lexer.Scan
import FrontEnd.Proofs.Nfa.Rules

/-!
# The longest match

What a lexer finds at an offset of an input, stated about the patterns of its definition: the
longest match of the rules that are active in the lexer state, and of several rules for it the
one that was declared first.

## Main Definitions

* `StartsLine`, `EndsLine` — a line starts or ends at an offset
* `LexerDefinition.Matches` — patterns match the bytes between two offsets
* `LexerDefinition.Candidate` — a rule matches the bytes between two offsets in a lexer state
* `LexerDefinition.ActiveIn`, `LexerDefinition.MatchesBetween` — the two conditions apart

## Main Statements

* `Lexer.isLongest_active` — the longest match of the rules that are resolved to a lexer state
* `Lexer.isLongest_longestMatch` — the longest match of a lexer that has been built

## Design Notes

The automaton of the rules is entered at one of two start states, which tell whether a line begins
at the offset.  So the condition at the beginning of a line is a matter of the entry, the one at the
end is a matter of the mark, and the strings between them are those of the patterns.
-/

namespace FrontEnd

/-- A line starts at the offset. -/
def StartsLine (input : List UInt8) (i : Nat) : Prop := i = 0 ∨ input[i - 1]? = some lineFeed

/-- A line ends at the offset. -/
def EndsLine (input : List UInt8) (i : Nat) : Prop := i = input.length ∨ input[i]? = some lineFeed

namespace LexerDefinition

/-- The patterns of a rule match a string, at the end of a line if the last one is anchored there.
With an end pattern, the match goes up to the first place where a match of that one ends. -/
def Matches (d : LexerDefinition) (rule : Rule) (first : Regex) (w : List UInt8) (endsLine : Prop) :
    Prop :=
  match rule.stop with
  | none => w ∈ first.node.language ∧ (first.atLineEnd = true → endsLine)
  | some pattern => ∃ last, Regex.parse d.flags d.named pattern = .ok last ∧
    w ∈ first.node.language * untilFirst last.node.language ∧ (last.atLineEnd = true → endsLine)

/-- The rule with a number matches the input between two offsets in a lexer state. -/
def Candidate (d : LexerDefinition) (input : List UInt8) (start state : Nat) (id stop : Nat) :
    Prop :=
  ∃ rule first, d.allRules[id]? = some rule ∧
    Regex.parse d.flags d.named rule.pattern = .ok first ∧ d.InScope state rule.scope ∧
    start ≤ stop ∧ stop ≤ input.length ∧ (first.atLineStart = true → StartsLine input start) ∧
    d.Matches rule first ((input.drop start).take (stop - start)) (EndsLine input stop)

/-- The rule with a number matches the input between two offsets, where it is active. -/
def MatchesBetween (d : LexerDefinition) (input : List UInt8) (start id stop : Nat) : Prop :=
  ∃ rule first, d.allRules[id]? = some rule ∧
    Regex.parse d.flags d.named rule.pattern = .ok first ∧ start ≤ stop ∧ stop ≤ input.length ∧
    (first.atLineStart = true → StartsLine input start) ∧
    d.Matches rule first ((input.drop start).take (stop - start)) (EndsLine input stop)

/-- The rule with a number has been resolved to lexer states of which this is one. -/
def ActiveIn (d : LexerDefinition) (id state : Nat) : Prop :=
  ∃ rule r, d.allRules[id]? = some rule ∧ d.resolve id rule = .ok r ∧ state ∈ r.states

variable {d : LexerDefinition}

/-- A candidate ends behind its beginning. -/
theorem Candidate.le {input : List UInt8} {start state id stop : Nat}
    (h : d.Candidate input start state id stop) : start ≤ stop := by
  obtain ⟨rule, first, -, -, -, hle, -⟩ := h
  exact hle

theorem MatchesBetween.le {input : List UInt8} {start id stop : Nat}
    (h : d.MatchesBetween input start id stop) : start ≤ stop := by
  obtain ⟨rule, first, -, -, hle, -⟩ := h
  exact hle

/-- The patterns match a string when the resolved rule does. -/
theorem matches_iff_of_stopRead {rule : Rule} {r : ResolvedRule}
    (hstop : d.StopRead rule.stop r.stop) {w : List UInt8} {endsLine : Prop} :
    d.Matches rule r.start w endsLine ↔
      w ∈ r.language ∧ (r.atLineEnd = true → endsLine) := by
  unfold Matches ResolvedRule.language ResolvedRule.atLineEnd
  cases hrule : rule.stop with
  | none =>
    cases hr : r.stop with
    | none => simp
    | some last =>
      rw [hrule, hr] at hstop
      exact hstop.elim
  | some pattern =>
    cases hr : r.stop with
    | none =>
      rw [hrule, hr] at hstop
      exact hstop.elim
    | some last =>
      rw [hrule, hr] at hstop
      have hparse : Regex.parse d.flags d.named pattern = .ok last := hstop
      simp [hparse]

end LexerDefinition

/-! ### Line breaks

The lexer asks whether bytes are at the end or begin with a line feed.  Seen from an offset, forward
or backward, this is whether a line ends or starts there. -/

/-- Bytes are at a line break when there are none, or when the first one is a line feed. -/
theorem atLineBreak_iff {bytes : List UInt8} :
    atLineBreak bytes = true ↔ bytes = [] ∨ bytes[0]? = some lineFeed := by
  cases bytes <;> simp [atLineBreak]

/-- Seen backward, a line starts. -/
theorem atLineBreak_take_reverse {input : List UInt8} {i : Nat} (hi : i ≤ input.length) :
    atLineBreak (input.take i).reverse = true ↔ StartsLine input i := by
  rw [atLineBreak_iff, StartsLine]
  cases i with
  | zero => simp
  | succ i =>
    have hlength : (input.take (i + 1)).length = i + 1 := List.length_take_of_le hi
    have hpos : 0 < (input.take (i + 1)).length := by
      rw [hlength]
      exact Nat.succ_pos i
    have hne : (input.take (i + 1)).reverse ≠ [] :=
      List.reverse_ne_nil_iff.2 (List.ne_nil_of_length_pos hpos)
    rw [or_iff_right hne, or_iff_right (Nat.succ_ne_zero i), List.getElem?_reverse hpos, hlength,
      List.getElem?_take_of_lt (by omega)]
    simp

/-- Seen forward, a line ends. -/
theorem atLineBreak_drop {input : List UInt8} {i : Nat} (hi : i ≤ input.length) :
    atLineBreak (input.drop i) = true ↔ EndsLine input i := by
  rw [atLineBreak_iff, List.drop_eq_nil_iff, List.getElem?_drop, Nat.add_zero]
  exact or_congr_left (by omega)

/-! ### Matches of the automaton

The chain of equivalences goes from the patterns of a definition to the rules that are resolved, to
the automaton of these rules and to the tables.  Each link keeps the rule and the length, so the
longest match is the same one at both ends. -/

/-- The longest match stays the longest when all lengths are counted from an offset. -/
theorem IsLongest.shift {m m' : Nat → Nat → Prop} {o : Option (Nat × Nat)} (h : IsLongest m o)
    (start : Nat)
    (hm : ∀ rule stop, m' rule stop ↔ ∃ length, stop = start + length ∧ m rule length) :
    IsLongest m' (o.map fun p => (p.1, start + p.2)) := by
  cases o with
  | none =>
    intro rule stop hmatch
    obtain ⟨length, -, hmatch⟩ := (hm rule stop).1 hmatch
    exact h rule length hmatch
  | some p =>
    refine ⟨(hm _ _).2 ⟨p.2, rfl, h.1⟩, ?_⟩
    intro rule stop hmatch
    obtain ⟨length, rfl, hlength⟩ := (hm rule stop).1 hmatch
    exact (h.2 rule length hlength).imp (Nat.add_lt_add_left · start)
      (And.imp_left (congrArg (start + ·)))

/-- What matches from a start state on. -/
theorem Nfa.matchesAhead_ofRules_iff {count : Nat} {rules : List ResolvedRule}
    (hstates : ∀ r ∈ rules, ∀ s ∈ r.states, s < count) {i : Nat} (hi : i < 2 * count)
    {ahead : List UInt8} {rule length : Nat} :
    (ofRules count rules).MatchesAhead ((ofRules count rules).closure [i]) ahead rule length ↔
      length ≤ ahead.length ∧ ∃ r, rules[rule]? = some r ∧ r.Enters i ∧
        ahead.take length ∈ r.language ∧
        (r.atLineEnd = true → atLineBreak (ahead.drop length) = true) := by
  have hwf := wellFormed_ofRules hstates
  have hlt := lt_of_lt_of_le hi (le_size_ofRules hstates)
  have haccepts := fun a => accepts_ofRules_iff hstates hi (w := ahead.take length) (a := a)
  apply and_congr_right
  intro _
  constructor
  · rintro ⟨j, a, hj, ha, rfl, hend⟩
    obtain ⟨r, hr, henters, hmark, hw⟩ := (haccepts a).1 ⟨j, (mem_run_iff hwf hlt).1 hj, ha⟩
    exact ⟨r, hr, henters, hw, hmark ▸ hend⟩
  · rintro ⟨r, hr, henters, hw, hend⟩
    obtain ⟨j, hj, ha⟩ := (haccepts ⟨rule, r.atLineEnd⟩).2 ⟨r, hr, henters, rfl, hw⟩
    exact ⟨j, _, (mem_run_iff hwf hlt).2 hj, ha, rfl, hend⟩

namespace LexerDefinition

variable {d : LexerDefinition}

/-- The start state of a lexer state at an offset. -/
def entryState (input : List UInt8) (start state : Nat) : Nat :=
  if atLineBreak (input.take start).reverse then Nfa.lineStart state else Nfa.insideLine state

/-- The entry is a start state. -/
theorem entryState_lt (input : List UInt8) (start : Nat) {state count : Nat} (h : state < count) :
    entryState input start state < 2 * count := by
  unfold entryState Nfa.lineStart Nfa.insideLine
  split <;> omega

/-- A rule is active at the entry when it is active in the lexer state, and its line starts if it
has to. -/
theorem enters_entryState_iff {r : ResolvedRule} {input : List UInt8} {start state : Nat}
    (hstart : start ≤ input.length) :
    r.Enters (entryState input start state) ↔
      state ∈ r.states ∧ (r.atLineStart = true → StartsLine input start) := by
  rw [← atLineBreak_take_reverse hstart]
  unfold entryState
  split
  · next h => simp [ResolvedRule.enters_lineStart_iff, h]
  · next h => simp [ResolvedRule.enters_insideLine_iff, h]

/-- The active rules that match are those of the automaton that match from the start state on. -/
theorem active_iff {resolved : List ResolvedRule}
    (hresolved : d.resolveFrom 0 d.allRules = .ok resolved) {input : List UInt8} {start state : Nat}
    (hstart : start ≤ input.length) (hstate : state < d.numStates) {id length : Nat} :
    d.ActiveIn id state ∧ d.MatchesBetween input start id (start + length) ↔
      (Nfa.ofRules d.numStates resolved).MatchesAhead
        ((Nfa.ofRules d.numStates resolved).closure [entryState input start state])
        (input.drop start) id length := by
  have hstates := lt_numStates_of_resolved hresolved
  -- the automaton sees what is left of the input, and the definition all of it
  have hends : start + length ≤ input.length →
      (atLineBreak ((input.drop start).drop length) = true ↔ EndsLine input (start + length)) := by
    intro hle
    rw [List.drop_drop, atLineBreak_drop hle]
  rw [Nfa.matchesAhead_ofRules_iff hstates (entryState_lt input start hstate), List.length_drop]
  unfold MatchesBetween
  rw [Nat.add_sub_cancel_left]
  constructor
  · rintro ⟨⟨rule, r, hrule, hresolve, hmem⟩, rule', first, hrule', hfirst, -, hle, hline, hmatch⟩
    obtain rfl : rule = rule' := Option.some.inj (hrule.symm.trans hrule')
    obtain ⟨hread, hstop, -, -⟩ := stages_of_resolve hresolve
    obtain rfl : first = r.start := Except.ok.inj (hfirst.symm.trans (parse_of_readPattern hread))
    rw [matches_iff_of_stopRead (stopRead_of_readStop hstop)] at hmatch
    refine ⟨by omega, r, (getElem?_of_resolveFrom hresolved).2 ⟨rule, hrule, ?_⟩,
      (enters_entryState_iff hstart).2 ⟨hmem, hline⟩, hmatch.1, ?_⟩
    · rwa [Nat.zero_add]
    · exact fun hend => (hends hle).2 (hmatch.2 hend)
  · rintro ⟨hlength, r, hr, henters, hw, hend⟩
    obtain ⟨rule, hrule, hresolve⟩ := (getElem?_of_resolveFrom hresolved).1 hr
    rw [Nat.zero_add] at hresolve
    obtain ⟨hread, hstop, -, -⟩ := stages_of_resolve hresolve
    obtain ⟨hmem, hline⟩ := (enters_entryState_iff hstart).1 henters
    have hle : start + length ≤ input.length := by omega
    refine ⟨⟨rule, r, hrule, hresolve, hmem⟩, rule, r.start, hrule, parse_of_readPattern hread,
      Nat.le_add_right _ _, hle, hline, ?_⟩
    rw [matches_iff_of_stopRead (stopRead_of_readStop hstop)]
    exact ⟨hw, fun hatEnd => (hends hle).1 (hend hatEnd)⟩

/-- A rule is a candidate where it is active and matches. -/
theorem candidate_iff {resolved : List ResolvedRule} (hwidth : d.numStates < 65536)
    (hresolved : d.resolveFrom 0 d.allRules = .ok resolved) {input : List UInt8}
    {start state id stop : Nat} :
    d.Candidate input start state id stop ↔
      d.ActiveIn id state ∧ d.MatchesBetween input start id stop := by
  constructor
  · rintro ⟨rule, first, hrule, hfirst, hscope, hmatch⟩
    obtain ⟨r, hr, h⟩ := exists_resolved hwidth hresolved hrule
    obtain ⟨rule', hrule', hresolve⟩ := (getElem?_of_resolveFrom hresolved).1 hr
    obtain rfl : rule = rule' := Option.some.inj (hrule.symm.trans hrule')
    rw [Nat.zero_add] at hresolve
    exact ⟨⟨rule, r, hrule, hresolve, (h.mem_states_iff state).2 hscope⟩, rule, first, hrule,
      hfirst, hmatch⟩
  · rintro ⟨⟨rule, r, hrule, hresolve, hmem⟩, rule', first, hrule', hfirst, hmatch⟩
    obtain rfl : rule = rule' := Option.some.inj (hrule.symm.trans hrule')
    have hscope := ((resolved_of_resolve hwidth hresolve).mem_states_iff state).1 hmem
    exact ⟨rule, first, hrule, hfirst, hscope, hmatch⟩

end LexerDefinition

namespace Lexer

variable {d : LexerDefinition} {l : Lexer}

/-- The match that is found ahead is the longest one that the automaton of the rules accepts. -/
theorem isLongest_matchesAhead {resolved : List ResolvedRule}
    (hresolved : d.resolveFrom 0 d.allRules = .ok resolved) (input : List UInt8) (start : Nat)
    {state : Nat} (hstate : state < d.numStates) :
    IsLongest ((Nfa.ofRules d.numStates resolved).MatchesAhead
        ((Nfa.ofRules d.numStates resolved).closure
          [LexerDefinition.entryState input start state]) (input.drop start))
      ((d.assemble resolved).matchAhead (input.take start).reverse (input.drop start) state) := by
  have hstates := LexerDefinition.lt_numStates_of_resolved hresolved
  have hwf := Nfa.wellFormed_ofRules hstates
  have hstarts : ∀ i ∈ d.startStates, i < (Nfa.ofRules d.numStates resolved).size := by
    intro i hi
    exact lt_of_lt_of_le (List.mem_range.1 hi) (Nfa.le_size_ofRules hstates)
  obtain ⟨found, hshows, hinitial⟩ := Dfa.exists_shows_build hwf hstarts
  -- the scan starts in the entry for this place of the input
  have hentry := hinitial _ _ (d.assemble resolved).dfa.size
    (List.getElem?_range (LexerDefinition.entryState_lt input start hstate))
  obtain ⟨p, hp, hscan⟩ := scan_eq (l := d.assemble resolved) hwf hshows hentry 0 none
    (input.drop start)
  -- whether a line starts here decides between the two entries of the lexer state
  have hmatch : (d.assemble resolved).matchAhead (input.take start).reverse (input.drop start)
      state = p := by
    have hrange : (List.range d.states.size)[state]? = some state := List.getElem?_range hstate
    have hentries : (d.assemble resolved).entries[state]? =
        some ((d.assemble resolved).dfa.initial.getD (Nfa.insideLine state)
            (d.assemble resolved).dfa.size,
          (d.assemble resolved).dfa.initial.getD (Nfa.lineStart state)
            (d.assemble resolved).dfa.size) := by
      simp [LexerDefinition.assemble, hrange]
    unfold matchAhead
    rw [hentries]
    simp only [Nat.zero_add, Option.or_none, Option.map_id_fun', id_eq] at hscan
    rw [← hscan]
    unfold LexerDefinition.entryState
    dsimp only
    split <;> rfl
  rw [hmatch]
  exact hp

/-- A match that is found ahead is found in a known lexer state, it lies in the bytes ahead, and it
is a string of its rule. -/
theorem exists_of_matchAhead {resolved : List ResolvedRule}
    (hresolved : d.resolveFrom 0 d.allRules = .ok resolved) {behind ahead : List UInt8}
    {state rule length : Nat}
    (h : (d.assemble resolved).matchAhead behind ahead state = some (rule, length)) :
    state < d.numStates ∧ length ≤ ahead.length ∧
      ∃ r, resolved[rule]? = some r ∧ ahead.take length ∈ r.language := by
  have hstate : state < d.numStates := by
    unfold matchAhead at h
    split at h
    · cases h
    · next entry hentry =>
      have hlt := (List.getElem?_eq_some_iff.1 hentry).choose
      simpa [LexerDefinition.assemble, LexerDefinition.numStates] using hlt
  -- seen from the whole input, the bytes behind and the bytes ahead are those around an offset
  have hlongest := isLongest_matchesAhead hresolved (behind.reverse ++ ahead)
    behind.reverse.length hstate
  rw [List.take_left, List.drop_left, List.reverse_reverse, h] at hlongest
  have hentry := LexerDefinition.entryState_lt (behind.reverse ++ ahead) behind.reverse.length
    hstate
  obtain ⟨hlength, r, hr, -, hw, -⟩ := (Nfa.matchesAhead_ofRules_iff
    (LexerDefinition.lt_numStates_of_resolved hresolved) hentry).1 hlongest.1
  exact ⟨hstate, hlength, r, hr, hw⟩

/-- The match that is found ahead is the longest one, and for it the least rule. -/
theorem isLongest_matchAhead (hbuild : d.build = .ok l) (hwidth : d.numStates < 65536)
    (input : List UInt8) {start state : Nat} (hstart : start ≤ input.length)
    (hstate : state < l.numStates) :
    IsLongest (fun rule length => d.Candidate input start state rule (start + length))
      (l.matchAhead (input.take start).reverse (input.drop start) state) := by
  obtain ⟨resolved, hresolved, rfl⟩ := LexerDefinition.exists_of_build hbuild
  convert isLongest_matchesAhead hresolved input start hstate using 3
  rw [LexerDefinition.candidate_iff hwidth hresolved,
    LexerDefinition.active_iff hresolved hstart hstate]

/-- **The longest match of the active rules.**  Whatever the number of lexer states is, a lexer
finds the longest match of the rules that have been resolved to the lexer state, and for it the
least rule. -/
theorem isLongest_active (hbuild : d.build = .ok l) (input : List UInt8) {start state : Nat}
    (hstart : start ≤ input.length) (hstate : state < d.numStates) :
    IsLongest (fun id stop => d.ActiveIn id state ∧ d.MatchesBetween input start id stop)
      (l.longestMatch input start state) := by
  obtain ⟨resolved, hresolved, rfl⟩ := LexerDefinition.exists_of_build hbuild
  apply (isLongest_matchesAhead hresolved input start hstate).shift start
  intro id stop
  constructor
  · intro h
    obtain ⟨length, rfl⟩ := Nat.exists_eq_add_of_le h.2.le
    exact ⟨length, rfl, (LexerDefinition.active_iff hresolved hstart hstate).1 h⟩
  · rintro ⟨length, rfl, h⟩
    exact (LexerDefinition.active_iff hresolved hstart hstate).2 h

/-- **The longest match.**  At any offset of any input and in any lexer state, a lexer finds the
longest match of the rules that are active there, and of several rules for it the one that was
declared first; it finds nothing when no rule matches. -/
theorem isLongest_longestMatch (hbuild : d.build = .ok l) (hwidth : d.numStates < 65536)
    (input : List UInt8) {start state : Nat} (hstart : start ≤ input.length)
    (hstate : state < l.numStates) :
    IsLongest (d.Candidate input start state) (l.longestMatch input start state) := by
  apply (isLongest_matchAhead hbuild hwidth input hstart hstate).shift start
  intro rule stop
  constructor
  · intro h
    obtain ⟨length, rfl⟩ := Nat.exists_eq_add_of_le h.le
    exact ⟨length, rfl, h⟩
  · rintro ⟨length, rfl, h⟩
    exact h

/-- A keyword, names, and comments from one pair of marks to the next. -/
def wordsAndComments : LexerDefinition :=
  { LexerDefinition.empty with
    rules := [Rule.simple "if" 300, Rule.simple "[a-z]+" 301, Rule.range "/[*]" "[*]/" 302] }

/-- A name goes on behind a keyword, and a comment ends at the first mark. -/
theorem isLongest_wordsAndComments :
    IsLongest (wordsAndComments.Candidate (bytesOf "ifx/**/*/") 0 0) (some (1, 3)) ∧
      IsLongest (wordsAndComments.Candidate (bytesOf "ifx/**/*/") 3 0) (some (2, 7)) := by
  have hmatch : (match wordsAndComments.build with
      | .ok l => some (l.numStates, l.longestMatch (bytesOf "ifx/**/*/") 0 0,
        l.longestMatch (bytesOf "ifx/**/*/") 3 0)
      | .error _ => none) = some (1, some (1, 3), some (2, 7)) := by decide +kernel
  cases hbuild : wordsAndComments.build with
  | error e =>
    rw [hbuild] at hmatch
    cases hmatch
  | ok l =>
    rw [hbuild] at hmatch
    obtain ⟨hstates, hname, hcomment⟩ :
        l.numStates = 1 ∧ l.longestMatch (bytesOf "ifx/**/*/") 0 0 = some (1, 3) ∧
          l.longestMatch (bytesOf "ifx/**/*/") 3 0 = some (2, 7) := by
      simpa using hmatch
    have hlt : 0 < l.numStates := by omega
    rw [← hname, ← hcomment]
    exact ⟨isLongest_longestMatch hbuild (by decide) _ (Nat.zero_le _) hlt,
      isLongest_longestMatch hbuild (by decide) _ (by decide) hlt⟩

end Lexer

end FrontEnd
