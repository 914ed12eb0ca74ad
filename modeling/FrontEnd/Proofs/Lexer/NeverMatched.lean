import FrontEnd.Proofs.Dfa.Reached
import FrontEnd.Proofs.Lexer.Tables
import FrontEnd.Proofs.Regex.Steps
import FrontEnd.Proofs.Text.Bytes

/-!
# Rules that are never matched

A build warns about the declared rules that no state of its automaton accepts.  None of them is ever
found, in any input.  And where no rule is anchored at the end of a line, each of the others is
found somewhere: a state that accepts the rule is reached over some string, and nothing can be
longer than the whole of an input.

## Main Definitions

* `LexerDefinition.neverMatched` — the warning for a rule
* `LexerDefinition.IsLineBound` — a pattern of a rule is anchored at the end of a line

## Main Statements

* `LexerDefinition.neverMatched_mem_diagnostics_iff` — the rules that are warned about
* `Lexer.mem_acceptedRules_of_longestMatch` — what is found is accepted by a state
* `LexerDefinition.exists_longestMatch_of_mem_acceptedRules` — what a state accepts is found
* `LexerDefinition.neverMatched_exact` — the warnings are right, and complete without such anchors
-/

namespace FrontEnd

/-! ### What a build reports

The diagnostics come from a few loops over the rules and the states.  Each rule has its own number,
so the warning about one rule is not mistaken for that about another. -/

namespace LexerDefinition

/-- The warning for a rule that is never matched. -/
def neverMatched (id : Nat) (rule : Rule) : Log.Message :=
  ⟨.warning, "rule " ++ toString id ++ " ('" ++ rule.pattern ++
    "') is never matched: it is shadowed by earlier rules"⟩

/-- The text of a warning tells the number of the rule. -/
theorem id_eq_of_neverMatched_eq {id id' : Nat} {rule rule' : Rule}
    (h : neverMatched id rule = neverMatched id' rule') : id = id' := by
  have htext := congrArg (fun m => m.text.toList) h
  simp only [neverMatched, String.toList_append, toList_toString, List.append_assoc] at htext
  exact eq_of_toDigits_append (by decide) (by decide) (List.append_cancel_left htext)

/-- The warnings are those for the rules that no state of the automaton accepts. -/
theorem messages_shadowed (accepted : List Nat) (log : Log) (rules : List (Rule × Nat)) :
    (shadowed accepted log rules).messages = log.messages ++
      (rules.filter fun entry => !accepted.contains entry.2).map fun entry =>
        neverMatched entry.2 entry.1 := by
  induction rules generalizing log with
  | nil => simp [shadowed]
  | cons entry rest ih =>
    obtain ⟨rule, id⟩ := entry
    unfold shadowed
    dsimp only
    rw [ih, List.filter_cons]
    cases accepted.contains id with
    | true => rfl
    | false => simp [Log.warning, Log.add, neverMatched]

/-- There is one warning for each lexer state that no rule enters, in the order of the states. -/
theorem messages_neverEntered (resolved : List ResolvedRule) (log : Log)
    (states : List (String × Nat)) :
    (neverEntered resolved log states).messages = log.messages ++
      (states.filter fun entry => !resolved.any (enters entry.2)).map fun entry =>
        ⟨.warning, "lexer state '" ++ entry.1 ++ "' is never entered"⟩ := by
  induction states generalizing log with
  | nil => simp [neverEntered]
  | cons entry rest ih =>
    obtain ⟨name, state⟩ := entry
    unfold neverEntered
    dsimp only
    rw [ih, List.filter_cons]
    cases resolved.any (enters state) with
    | true => rfl
    | false => simp [Log.warning, Log.add]

/-- A text that begins with another character is no warning for a rule. -/
theorem neverMatched_ne {id : Nat} {rule : Rule} {m : Log.Message} {c : Char}
    (hm : m.text.toList.head? = some c) (hc : c ≠ 'r') : neverMatched id rule ≠ m := by
  rintro rfl
  simp [neverMatched] at hm
  exact hc hm.symm

/-- **The rules that are warned about** are those that no state of the automaton accepts. -/
theorem neverMatched_mem_diagnostics_iff {d : LexerDefinition} {resolved : List ResolvedRule}
    {dfa : Dfa} {id : Nat} {rule : Rule} (hrule : d.rules[id]? = some rule) :
    neverMatched id rule ∈ (d.diagnostics resolved dfa).messages ↔ id ∉ dfa.acceptedRules := by
  have hfirst : neverMatched id rule ∉ (if resolved.isEmpty then
      Log.empty.warning "no lexer rules: every byte of the input will be an invalid token"
      else Log.empty).messages := by
    split
    · exact fun h => neverMatched_ne (c := 'n') (by decide) (by decide) (List.mem_singleton.1 h)
    · exact List.not_mem_nil
  have hentered : neverMatched id rule ∉
      ((d.states.toList.zipIdx.drop 1).filter fun entry => !resolved.any (enters entry.2)).map
        fun entry => ⟨.warning, "lexer state '" ++ entry.1 ++ "' is never entered"⟩ := by
    intro h
    obtain ⟨entry, -, heq⟩ := List.mem_map.1 h
    exact neverMatched_ne (c := 'l') (by simp) (by decide) heq.symm
  have hshadowed : neverMatched id rule ∈ (d.rules.zipIdx.filter fun entry =>
      !dfa.acceptedRules.contains entry.2).map (fun entry => neverMatched entry.2 entry.1) ↔
        id ∉ dfa.acceptedRules := by
    rw [List.mem_map]
    constructor
    · rintro ⟨⟨other, k⟩, hmem, heq⟩
      obtain rfl := id_eq_of_neverMatched_eq heq
      simpa using (List.mem_filter.1 hmem).2
    · intro hnot
      have hmem : (rule, id) ∈ d.rules.zipIdx := List.mem_zipIdx_iff_getElem?.2 hrule
      exact ⟨(rule, id), List.mem_filter.2 ⟨hmem, by simpa using hnot⟩, rfl⟩
  unfold diagnostics
  dsimp only
  rw [Log.note, Log.add, messages_neverEntered, messages_shadowed, List.mem_append,
    List.mem_append, List.mem_append, hshadowed, or_iff_right hfirst, or_iff_left hentered,
    or_iff_left]
  exact fun h => neverMatched_ne (c := 'l') (by simp) (by decide) (List.mem_singleton.1 h)

/-- A rule is warned about when no state of the automaton accepts it. -/
theorem neverMatched_mem_messages_iff {d : LexerDefinition} {l : Lexer} {id : Nat} {rule : Rule}
    (hbuild : d.build = .ok l) (hrule : d.rules[id]? = some rule) :
    neverMatched id rule ∈ l.log.messages ↔ id ∉ l.dfa.acceptedRules := by
  obtain ⟨resolved, -, rfl⟩ := exists_of_build hbuild
  exact neverMatched_mem_diagnostics_iff hrule

end LexerDefinition

/-! ### What is found

A rule that is found has been accepted by a state of the automaton on the way.  For the converse,
the string that leads to the accepting state is taken as the whole input: nothing longer can match,
and a smaller rule would stand in the table instead. -/

namespace Lexer

variable {l : Lexer}

/-- **What is found is accepted by a state** of the automaton. -/
theorem mem_acceptedRules_of_longestMatch {input : List UInt8} {start state rule stop : Nat}
    (h : l.longestMatch input start state = some (rule, stop)) : rule ∈ l.dfa.acceptedRules := by
  obtain ⟨⟨rule, length⟩, hmatch, heq⟩ := Option.map_eq_some_iff.1 h
  obtain ⟨rfl, -⟩ := Prod.mk.inj heq
  unfold matchAhead at hmatch
  split at hmatch
  · cases hmatch
  · obtain hnone | ⟨node, rest, haccepting, -⟩ := exists_accepting_of_scan hmatch
    · cases hnone
    · exact Dfa.mem_acceptedRules_iff.2 (mem_tables_of_accepting haccepting)

end Lexer

namespace LexerDefinition

variable {d : LexerDefinition} {resolved : List ResolvedRule}

/-- Each start state of the automaton is the one for some offset of some input, in some lexer state,
with a given string ahead. -/
theorem exists_entryState_eq {count i : Nat} (hi : i < 2 * count) (w : List UInt8) :
    ∃ input start state, start ≤ input.length ∧ state < count ∧
      entryState input start state = i ∧ input.drop start = w := by
  have hhalf : i / 2 < count := by omega
  rcases Nat.mod_two_eq_zero_or_one i with heven | hodd
  · -- the offset is inside a line
    refine ⟨0x61 :: w, 1, i / 2, by simp, hhalf, ?_, rfl⟩
    show Nfa.insideLine (i / 2) = i
    rw [Nfa.insideLine]
    omega
  · refine ⟨w, 0, i / 2, Nat.zero_le _, hhalf, ?_, rfl⟩
    show Nfa.lineStart (i / 2) = i
    rw [Nfa.lineStart]
    omega

/-- A mark of the automaton of some rules, behind a string, is that of a rule. -/
theorem exists_of_marked {count i rule : Nat} {rules : List ResolvedRule}
    (hstates : ∀ r ∈ rules, ∀ s ∈ r.states, s < count) (hi : i < 2 * count) {w : List UInt8}
    {atLineEnd : Bool}
    (h : rule ∈ Dfa.marked (Nfa.ofRules count rules) ((Nfa.ofRules count rules).run i w)
      atLineEnd) : ∃ r, rules[rule]? = some r ∧ r.atLineEnd = atLineEnd := by
  obtain ⟨j, hj, haccept⟩ := h
  have hlt := Nat.lt_of_lt_of_le hi (Nfa.le_size_ofRules hstates)
  obtain ⟨r, hr, -, hline, -⟩ := (Nfa.accepts_ofRules_iff hstates hi).1
    ⟨j, (Nfa.mem_run_iff (Nfa.wellFormed_ofRules hstates) hlt).1 hj, haccept⟩
  exact ⟨r, hr, hline.symm⟩

/-- **What a state accepts is found**, at the end of the input that leads to the state, when no rule
is anchored at the end of a line. -/
theorem exists_longestMatch_of_mem_acceptedRules
    (hresolved : d.resolveFrom 0 d.allRules = .ok resolved)
    (hline : ∀ r ∈ resolved, r.atLineEnd = false) {rule : Nat}
    (h : rule ∈ (d.assemble resolved).dfa.acceptedRules) :
    ∃ input start state, start ≤ input.length ∧ state < d.numStates ∧
      (d.assemble resolved).longestMatch input start state = some (rule, input.length) := by
  have hstates := lt_numStates_of_resolved hresolved
  obtain ⟨i, hi, w, haccepts⟩ := Dfa.exists_run_of_mem_acceptedRules _ h
  have hi : i < 2 * d.numStates := List.mem_range.1 hi
  -- no state has a rule for the ends of lines only
  have hanywhere : (Dfa.accepts (Nfa.ofRules d.numStates resolved)
      ((Nfa.ofRules d.numStates resolved).run i w)).2 = none := by
    by_contra hsome
    obtain ⟨rule', hrule'⟩ := Option.ne_none_iff_exists'.1 hsome
    obtain ⟨r, hr, hatEnd⟩ := exists_of_marked hstates hi
      (((Dfa.accepts_iff _ _).2 rule').1 hrule').1.1
    rw [hline r (List.mem_of_getElem? hr)] at hatEnd
    cases hatEnd
  have hchosen : Dfa.chosen (Dfa.accepts (Nfa.ofRules d.numStates resolved)
      ((Nfa.ofRules d.numStates resolved).run i w)) true = some rule := by
    rw [Dfa.chosen, hanywhere]
    exact haccepts.resolve_right fun h => by
      rw [show d.states.size = d.numStates from rfl, hanywhere] at h
      cases h
  have hleast := Dfa.leastOf_chosen (Nfa.ofRules d.numStates resolved)
    ((Nfa.ofRules d.numStates resolved).run i w) true
  rw [hchosen] at hleast
  obtain ⟨input, start, state, hstart, hstate, rfl, rfl⟩ := exists_entryState_eq hi w
  refine ⟨input, start, state, hstart, hstate, ?_⟩
  -- nothing is longer than all that is ahead
  have hfound : (d.assemble resolved).matchAhead (input.take start).reverse (input.drop start)
      state = some (rule, (input.drop start).length) := by
    refine (Lexer.isLongest_matchesAhead hresolved input start hstate).eq_some
      (Nfa.matchesAhead_length.2 hleast.1) fun rule' length' hm => ⟨hm.1, ?_⟩
    rintro rfl
    exact hleast.2 (Nfa.matchesAhead_length.1 hm)
  rw [Lexer.longestMatch, hfound]
  simp [hstart]

/-! ### Rules without an anchor at the end

An anchor makes a mark count at the ends of lines only.  The mark of a rule without such an anchor
counts everywhere. -/

/-- A pattern of the rule is anchored at the end of a line. -/
def IsLineBound (d : LexerDefinition) (rule : Rule) : Prop :=
  ∃ pattern ∈ rule.pattern :: rule.stop.toList, ∃ r : Regex,
    Regex.parse d.flags d.named pattern = .ok r ∧ r.atLineEnd = true

/-- Only a rule with a dollar sign in a pattern is bound to the end of a line. -/
theorem exists_dollar_of_isLineBound {rule : Rule} (h : d.IsLineBound rule) :
    ∃ pattern ∈ rule.pattern :: rule.stop.toList, 0x24 ∈ bytesOf pattern := by
  obtain ⟨pattern, hmem, r, hparse, hend⟩ := h
  exact ⟨pattern, hmem, Regex.dollar_mem_of_parse hparse hend⟩

/-- The rule that skips blanks is not bound to the end of a line. -/
theorem not_isLineBound_blanks : ¬ d.IsLineBound Rule.blanks := by
  intro h
  obtain ⟨pattern, hmem, hdollar⟩ := exists_dollar_of_isLineBound h
  obtain rfl := List.mem_singleton.1 hmem
  exact absurd hdollar (by decide +kernel)

/-- The resolved rule has the anchors of its patterns. -/
theorem atLineEnd_eq_false_of_resolved {rule : Rule} {r : ResolvedRule} (h : d.Resolved rule r)
    (hbound : ¬ d.IsLineBound rule) : r.atLineEnd = false := by
  rw [← Bool.not_eq_true]
  intro hend
  obtain ⟨start, stop, states, change⟩ := r
  obtain ⟨pattern, stopPattern, token, userData, scope, destination⟩ := rule
  have hstop := h.stop
  cases stopPattern with
  | none =>
    cases stop with
    | none => exact hbound ⟨pattern, List.mem_cons_self, start, h.start, hend⟩
    | some stop => exact hstop
  | some stopPattern =>
    cases stop with
    | none => exact hstop
    | some stop =>
      exact hbound ⟨stopPattern, List.mem_cons_of_mem _ List.mem_cons_self, stop, hstop, hend⟩

/-- When no declared rule is bound to the end of a line, no resolved rule is. -/
theorem atLineEnd_eq_false_of_resolveFrom (hwidth : d.numStates < 65536)
    (hresolved : d.resolveFrom 0 d.allRules = .ok resolved)
    (hbound : ∀ rule ∈ d.rules, ¬ d.IsLineBound rule) : ∀ r ∈ resolved, r.atLineEnd = false := by
  intro r hr
  obtain ⟨id, hid⟩ := List.mem_iff_getElem?.1 hr
  obtain ⟨rule, hrule, h⟩ := exists_rule hwidth hresolved hid
  refine atLineEnd_eq_false_of_resolved h ?_
  have hmem : rule ∈ d.allRules := List.mem_of_getElem? hrule
  unfold allRules at hmem
  split at hmem
  · rcases List.mem_append.1 hmem with hmem | hmem
    · exact hbound rule hmem
    · obtain rfl := List.mem_singleton.1 hmem
      exact not_isLineBound_blanks
  · exact hbound rule hmem

/-- **The warnings are right, and complete.**  A rule that is warned about is not found in any
input, at any offset and in any lexer state.  When no rule is bound to the end of a line, each
declared rule without a warning is found somewhere, in one of the declared states. -/
theorem neverMatched_exact {l : Lexer} {id : Nat} {rule : Rule} (hbuild : d.build = .ok l)
    (hwidth : d.numStates < 65536) (hrule : d.rules[id]? = some rule) :
    (neverMatched id rule ∈ l.log.messages →
      ∀ input start state stop, l.longestMatch input start state ≠ some (id, stop)) ∧
    ((∀ r ∈ d.rules, ¬ d.IsLineBound r) → neverMatched id rule ∉ l.log.messages →
      ∃ input start state stop, start ≤ input.length ∧ state < d.numStates ∧
        l.longestMatch input start state = some (id, stop)) := by
  rw [neverMatched_mem_messages_iff hbuild hrule, not_not]
  obtain ⟨resolved, hresolved, rfl⟩ := exists_of_build hbuild
  constructor
  · intro hnot input start state stop h
    exact hnot (Lexer.mem_acceptedRules_of_longestMatch h)
  · intro hbound haccepted
    obtain ⟨input, start, state, hstart, hstate, h⟩ := exists_longestMatch_of_mem_acceptedRules
      hresolved (atLineEnd_eq_false_of_resolveFrom hwidth hresolved hbound) haccepted
    exact ⟨input, start, state, input.length, hstart, hstate, h⟩

/-- Words in front of a keyword, a sign at the starts of lines, and blanks that are skipped. -/
def wordsBeforeKeyword : LexerDefinition :=
  let d := (empty.addRule (Rule.simple "[a-z]+" 300)).2
  let d := (d.addRule (Rule.simple "if" 301)).2
  (d.addRule (Rule.simple "^#" 302)).2.setFlags { Flags.none with skipBlanks := true }

/-- The keyword is never found, for it is a word that comes first; the words and the sign are. -/
theorem neverMatched_exact_wordsBeforeKeyword :
    ∃ l, wordsBeforeKeyword.build = .ok l ∧
      (∀ input start state stop, l.longestMatch input start state ≠ some (1, stop)) ∧
      ∀ id ∈ [0, 2], ∃ input start state stop, start ≤ input.length ∧
        state < wordsBeforeKeyword.numStates ∧
        l.longestMatch input start state = some (id, stop) := by
  have haccepted : wordsBeforeKeyword.build.map (fun l => [0, 1, 2].map fun id =>
      decide (some id ∈ l.dfa.accept ∨ some id ∈ l.dfa.lineEndAccept)) =
        .ok [true, false, true] := by
    decide +kernel
  obtain ⟨l, hbuild, haccepted⟩ := exists_of_map_eq_ok haccepted
  simp only [← Dfa.mem_acceptedRules_iff] at haccepted
  obtain ⟨hwords, hkeyword, hsign⟩ : 0 ∈ l.dfa.acceptedRules ∧ 1 ∉ l.dfa.acceptedRules ∧
      2 ∈ l.dfa.acceptedRules := by simpa using haccepted
  have hwidth : wordsBeforeKeyword.numStates < 65536 := by decide +kernel
  have hdollar : ∀ r ∈ wordsBeforeKeyword.rules, ∀ pattern ∈ r.pattern :: r.stop.toList,
      0x24 ∉ bytesOf pattern := by decide +kernel
  have hbound : ∀ r ∈ wordsBeforeKeyword.rules, ¬ wordsBeforeKeyword.IsLineBound r := by
    intro r hr h
    obtain ⟨pattern, hmem, hdollar'⟩ := exists_dollar_of_isLineBound h
    exact hdollar r hr pattern hmem hdollar'
  refine ⟨l, hbuild, ?_, fun id hid => ?_⟩
  · exact (neverMatched_exact hbuild hwidth rfl).1
      ((neverMatched_mem_messages_iff hbuild rfl).2 hkeyword)
  · rcases List.mem_pair.1 hid with rfl | rfl
    · exact (neverMatched_exact hbuild hwidth rfl).2 hbound fun h =>
        (neverMatched_mem_messages_iff hbuild rfl).1 h hwords
    · exact (neverMatched_exact hbuild hwidth rfl).2 hbound fun h =>
        (neverMatched_mem_messages_iff hbuild rfl).1 h hsign

end LexerDefinition

end FrontEnd
