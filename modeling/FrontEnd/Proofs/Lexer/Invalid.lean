import FrontEnd.Proofs.Lexer.Termination

/-!
# Invalid bytes

A byte where no rule has a match that is allowed is answered as a token of its own, with an
identification that is meant for such bytes only.  Nothing keeps a rule from being declared with
this identification, and then its matches have it too.  There is no third way to such a token.

## Main Definitions

* `Lexer.Recalls` — what a cursor remembers has been performed
* `LexerDefinition.Unmatched` — a token for a byte where no match is allowed
* `LexerDefinition.DeclaredInvalid` — a token for a match of a rule with this identification

## Main Statements

* `Lexer.Recalls.step` — a step remembers no more than it performs
* `Lexer.Trail.exists_answer` — a token is answered by the last step of a scan
* `LexerDefinition.invalid_cases` — each invalid token is one of the two
* `LexerDefinition.invalid_twoBytes` — a rule can be declared so, and an invalid token can have more
  than one byte

## Design Notes

`Lexer.Remembers` says that a cursor forgets no match of the empty string where it is.  Here the
converse is needed: a lexer state that a cursor remembers has matched the empty string.
-/

namespace FrontEnd

namespace Lexer

/-- A lexer state that a cursor remembers has matched the empty string at the remembered place. -/
def Recalls (performed : List PerformedMatch) (c : Cursor) : Prop :=
  ∀ s ∈ c.emptyStates, (c.emptyAt, s) ∈ emptyPlaces performed

variable {l : Lexer} {input : List UInt8} {legs : List Leg} {c d : Cursor} {t : Token}
  {performed before : List PerformedMatch}

/-! ### The memory

A lexer state that a cursor remembers has matched the empty string at its place.  Steps keep this,
and so do scans and calls. -/

/-- A new cursor remembers nothing. -/
theorem recalls_start (input : List UInt8) (state : Nat) :
    Recalls [] (Cursor.start input state) := by
  intro s hs
  cases hs

/-- Further matches do not matter as long as the memory is the same. -/
theorem Recalls.congr (h : Recalls performed c) (hat : d.emptyAt = c.emptyAt)
    (hstates : d.emptyStates = c.emptyStates) (more : List PerformedMatch) :
    Recalls (performed ++ more) d := by
  intro s hs
  rw [emptyPlaces_append, hat]
  exact List.mem_append_left _ (h s (hstates ▸ hs))

/-- What a cursor remembers here has matched the empty string here. -/
theorem Recalls.mem_emptyPlaces (h : Recalls performed c) {s : Nat}
    (hs : s ∈ c.emptyStatesHere) : (c.position, s) ∈ emptyPlaces performed := by
  unfold Cursor.emptyStatesHere at hs
  split at hs
  · next hat => exact hat ▸ h s hs
  · cases hs

/-- **A step remembers no more than it performs.** -/
theorem Recalls.step (hl : l.Regular) (h : Recalls performed c) :
    Recalls (performed ++ l.performed c) (l.step c).2 := by
  rcases step_cases hl c with ⟨-, hstep⟩ | ⟨-, -, -, hstep⟩ |
    ⟨hend, rule, length, terminal, after, hsome, -, -, hafter, hstep⟩
  · rw [hstep]
    exact h.congr rfl rfl _
  · rw [hstep]
    exact h.congr rfl rfl _
  · obtain ⟨state, stack, happly⟩ := after.apply_eq terminal.change
    rw [hstep, happly, performed_of_matchAt hend hsome]
    rcases hafter with ⟨-, rfl⟩ | ⟨rfl, hremember⟩
    · exact h.congr rfl rfl _
    · -- the match is remembered together with those at the same place
      obtain ⟨-, rfl⟩ := Cursor.rememberEmpty?_eq_some hremember
      intro s hs
      rw [emptyPlaces_append]
      rcases List.mem_cons.1 hs with rfl | hs
      · exact List.mem_append_right _ (List.mem_singleton_self _)
      · exact List.mem_append_left _ (h.mem_emptyPlaces hs)

/-- Calls keep the memory true. -/
theorem Recalls.performs (hl : l.Regular) {calls : List Cursor.Call}
    (hperforms : l.Performs c calls performed d) (h : Recalls before c) :
    Recalls (before ++ performed) d :=
  hperforms.keeps (fun _ _ h => h.step hl) (fun _ _ _ _ h => h) h

/-! ### Answers

An invalid token comes from the last step of a scan.  A step answers one for a byte without an
allowed match, or for a match of a rule that has been declared with this identification. -/

/-- **A token is answered by the last step of a scan**, and what holds along the scan holds in front
of this step. -/
theorem Trail.exists_answer (hl : l.Regular) (hadvances : l.Advances c performed t d)
    (h : l.Trail input legs c) (hrecalls : Recalls before c) :
    ∃ last legs' dropped, l.Trail input legs' last ∧ Recalls (before ++ dropped) last ∧
      l.step last = (some t, d) ∧ performed = dropped ++ l.performed last := by
  induction hadvances generalizing legs before with
  | @answer c d t hstep => exact ⟨c, legs, [], h, by simpa using hrecalls, hstep, rfl⟩
  | @dropped c d e t more hstep _ ih =>
    obtain ⟨segment, htrail, -⟩ := h.step hl (atEnd_of_dropped hstep)
    have hafter := hrecalls.step hl
    rw [hstep] at htrail hafter
    obtain ⟨last, legs', dropped, hlast, hrecall, hanswer, rfl⟩ := ih htrail hafter
    refine ⟨last, legs', l.performed c ++ dropped, hlast, ?_, hanswer, ?_⟩
    · rwa [← List.append_assoc]
    · rw [List.append_assoc]

/-- **What an invalid token can be answered for**: a byte where only the empty string matches, and
has been matched there before, or a match of a rule whose instructions have this identification. -/
theorem Trail.invalid_step (hl : l.Regular) (h : l.Trail input legs c)
    (hrecalls : Recalls before c) (hstep : l.step c = (some t, d)) (ht : t.isInvalid = true) :
    (c.position < input.length ∧ t = c.token TokenId.invalid 0 1 c.state ∧
      ∀ rule stop, l.longestMatch input c.position c.state = some (rule, stop) →
        stop = c.position ∧ (c.position, c.state) ∈ emptyPlaces before) ∨
    ∃ rule length terminal, l.performed c = [⟨c.position, c.state, rule, length⟩] ∧
      l.longestMatch input c.position c.state = some (rule, c.position + length) ∧
      l.terminal? rule = some terminal ∧ terminal.token = TokenId.invalid ∧
      t.start = c.position ∧ t.stop = c.position + length := by
  rcases step_cases hl c with ⟨-, heq⟩ | ⟨hend, hnone, hempty, heq⟩ |
    ⟨hend, rule, length, terminal, after, hsome, hmatch, hterminal, -, heq⟩
  · obtain rfl := Option.some.inj (Prod.mk.inj (heq.symm.trans hstep)).1
    cases ht
  · obtain rfl := Option.some.inj (Prod.mk.inj (heq.symm.trans hstep)).1
    have hlt : c.position < input.length := by
      have hpos := Cursor.length_ahead_pos hend
      have hsize := c.size_eq
      rw [← h.input_eq, ← c.size_eq_length]
      omega
    refine .inl ⟨hlt, rfl, fun rule stop hlongest => ?_⟩
    obtain ⟨length, hmatch, rfl⟩ := h.longestMatch_iff.1 hlongest
    obtain rfl := hempty rule length hmatch
    -- the match of the empty string is not allowed, so it is remembered
    have hhere : c.state ∈ c.emptyStatesHere := by
      by_contra hnot
      simp [matchAt, hmatch, Cursor.rememberEmpty?, hnot] at hnone
    exact ⟨rfl, hrecalls.mem_emptyPlaces hhere⟩
  · have hanswer := (Prod.mk.inj (heq.symm.trans hstep)).1
    split at hanswer
    · cases hanswer
    · obtain rfl := Option.some.inj hanswer
      have htoken : terminal.token = TokenId.invalid := by
        simpa [Token.isInvalid, Cursor.token] using ht
      exact .inr ⟨rule, length, terminal, performed_of_matchAt hend hsome,
        h.longestMatch_iff.2 ⟨length, hmatch, rfl⟩, hterminal, htoken, rfl, rfl⟩

end Lexer

namespace LexerDefinition

/-- A token for one byte, with the lexer state in which no rule has a match there that is allowed:
an active rule matches the empty string at most, and this has been done before. -/
structure Unmatched (d : LexerDefinition) (input : List UInt8) (performed : List PerformedMatch)
    (t : Token) : Prop where
  start_lt : t.start < input.length
  stop_eq : t.stop = t.start + 1
  no_match : ∀ id stop, d.ActiveIn id t.state → d.MatchesBetween input t.start id stop →
    stop = t.start ∧ (t.start, t.state) ∈ emptyPlaces performed

/-- A token for the latest match, which is one of a rule that has been declared with the
identification of invalid bytes. -/
def DeclaredInvalid (d : LexerDefinition) (l : Lexer) (input : List UInt8)
    (performed : List PerformedMatch) (t : Token) : Prop :=
  ∃ m rule, performed.getLast? = some m ∧ d.rules[m.rule]? = some rule ∧
    rule.token = TokenId.invalid ∧ m.position = t.start ∧ m.position + m.length = t.stop ∧
    l.longestMatch input m.position m.state = some (m.rule, t.stop)

variable {d : LexerDefinition} {l : Lexer} {input : List UInt8} {start state id stop : Nat}

/-- Rules are active in known lexer states only. -/
theorem lt_numStates_of_activeIn (h : d.ActiveIn id state) : state < d.numStates := by
  obtain ⟨rule, r, -, hresolve, hmem⟩ := h
  exact lt_numStates_of_resolveScope (stages_of_resolve hresolve).2.2.1 _ hmem

/-- Where an active rule matches, a match is found that is as long at least. -/
theorem exists_longestMatch_of_activeIn (hbuild : d.build = .ok l) (hstart : start ≤ input.length)
    (hactive : d.ActiveIn id state) (hmatch : d.MatchesBetween input start id stop) :
    ∃ rule stop', l.longestMatch input start state = some (rule, stop') ∧ stop ≤ stop' := by
  have hlongest :=
    Lexer.isLongest_active hbuild input hstart (lt_numStates_of_activeIn hactive)
  cases hfound : l.longestMatch input start state with
  | none =>
    rw [hfound] at hlongest
    exact absurd ⟨hactive, hmatch⟩ (hlongest id stop)
  | some found =>
    obtain ⟨rule, stop'⟩ := found
    rw [hfound] at hlongest
    refine ⟨rule, stop', rfl, ?_⟩
    rcases hlongest.2 id stop ⟨hactive, hmatch⟩ with hlt | ⟨heq, -⟩
    · exact Nat.le_of_lt hlt
    · exact Nat.le_of_eq heq

/-- The instructions of a rule have the identification that it has been declared with, unless it is
the implicit rule, which is dropped. -/
theorem exists_rule_of_terminal? (hbuild : d.build = .ok l) {terminal : Terminal}
    (h : l.terminal? id = some terminal) (hskip : terminal.token ≠ TokenId.skip) :
    ∃ rule, d.rules[id]? = some rule ∧ rule.token = terminal.token := by
  obtain ⟨resolved, -, rfl⟩ := exists_of_build hbuild
  obtain ⟨⟨rule, r⟩, hzip, rfl⟩ := Option.map_eq_some_iff.1 (List.getElem?_map.symm.trans h)
  have hrule : d.allRules[id]? = some rule := (List.getElem?_zip_eq_some.1 hzip).1
  refine ⟨rule, ?_, rfl⟩
  unfold allRules at hrule
  split at hrule
  · rw [List.getElem?_append] at hrule
    split at hrule
    · exact hrule
    · obtain rfl := List.mem_singleton.1 (List.mem_of_getElem? hrule)
      exact absurd rfl hskip
  · exact hrule

/-- **What an invalid token is.**  In the life of any cursor of a lexer, a token with the
identification of invalid bytes stands for one byte where no active rule has a match that is
allowed, or for a match of a rule that has been declared with this identification.  The matches of
the empty string that are not allowed are those in the life of the cursor up to the token. -/
theorem invalid_cases (hd : d.Reachable) (hbuild : d.build = .ok l) (input : List UInt8)
    (state : Nat) (front : List Cursor.Call) (call : Cursor.Call) {t : Token}
    (ht : (l.call (l.calls (Cursor.start input state) front).2 call).1 = some t)
    (hinvalid : t.isInvalid = true) :
    (∃ performed after, l.Performs (Cursor.start input state) (front ++ [call]) performed after) ∧
      ∀ performed after, l.Performs (Cursor.start input state) (front ++ [call]) performed after →
        d.Unmatched input performed t ∨ d.DeclaredInvalid l input performed t := by
  have hl := regular_of_build hd hbuild
  have hstart := l.trail_start input state
  obtain ⟨legs, -, htrail, -⟩ := hstart.calls hl front
  obtain ⟨before, hfront⟩ := hstart.performs hl front
  have hrecalls : Lexer.Recalls before (l.calls (Cursor.start input state) front).2 := by
    simpa using (Lexer.recalls_start input state).performs hl hfront
  obtain ⟨scanned, hcall, hscanned⟩ := htrail.performs_call hl call
  obtain ⟨_, hadvances⟩ := hscanned t ht
  have hall := hfront.append hcall
  refine ⟨⟨_, _, hall⟩, fun performed after hperforms => ?_⟩
  obtain ⟨rfl, -⟩ := hall.unique hperforms
  obtain ⟨last, legs', dropped, hlast, hrecalls, hanswer, rfl⟩ :=
    htrail.exists_answer hl hadvances hrecalls
  rcases hlast.invalid_step hl hrecalls hanswer hinvalid with
    ⟨hlt, rfl, hmatches⟩ | ⟨id, length, terminal, hlatest, hmatch, hterminal, htoken, hat, hstop⟩
  · refine .inl ⟨hlt, rfl, fun id stop hactive hbetween => ?_⟩
    obtain ⟨rule, longest, hlongest, hle⟩ :=
      exists_longestMatch_of_activeIn hbuild (Nat.le_of_lt hlt) hactive hbetween
    obtain ⟨rfl, hmem⟩ := hmatches rule longest hlongest
    refine ⟨Nat.le_antisymm hle hbetween.le, ?_⟩
    rw [← List.append_assoc, emptyPlaces_append]
    exact List.mem_append_left _ hmem
  · obtain ⟨rule, hrule, hid⟩ := exists_rule_of_terminal? hbuild hterminal (by rw [htoken]; decide)
    refine .inr ⟨⟨last.position, last.state, id, length⟩, rule, ?_, hrule, hid.trans htoken,
      hat.symm, hstop.symm, ?_⟩
    · rw [hlatest, ← List.append_assoc, List.getLast?_concat]
    · rw [hstop]
      exact hmatch

/-- Nothing but the empty string matches in front of the byte in question, and it has been matched
there before. -/
theorem invalid_cases_wordsAndSemicolons :
    ∃ l t, wordsAndSemicolons.build = .ok l ∧
      (l.call (l.calls (Cursor.start (bytesOf "ab  ?c") 0) [.advance, .next]).2 .advance).1 =
        some t ∧
      t.isInvalid = true ∧ (t.start, t.stop) = (4, 5) ∧
      ∃ performed after,
        l.Performs (Cursor.start (bytesOf "ab  ?c") 0) ([.advance, .next] ++ [.advance]) performed
          after ∧
        wordsAndSemicolons.Unmatched (bytesOf "ab  ?c") performed t := by
  have hanswer : (match wordsAndSemicolons.build with
      | .ok l =>
        (l.call (l.calls (Cursor.start (bytesOf "ab  ?c") 0) [.advance, .next]).2 .advance).1.map
          fun t => (t.isInvalid, t.start, t.stop)
      | .error _ => none) = some (true, 4, 5) := by
    decide +kernel
  have hreachable : wordsAndSemicolons.Reachable :=
    .flags _ (.rule _ (.rule _ (.rule _ .empty)))
  have hdeclared : ∀ rule ∈ wordsAndSemicolons.rules, rule.token ≠ TokenId.invalid := by decide
  cases hbuild : wordsAndSemicolons.build with
  | error e =>
    rw [hbuild] at hanswer
    cases hanswer
  | ok l =>
    rw [hbuild] at hanswer
    obtain ⟨t, ht, hspan⟩ := Option.map_eq_some_iff.1 hanswer
    obtain ⟨hinvalid, hspan⟩ := Prod.mk.inj hspan
    obtain ⟨⟨performed, after, hperforms⟩, hcases⟩ :=
      invalid_cases hreachable hbuild _ _ _ _ ht hinvalid
    refine ⟨l, t, rfl, ht, hinvalid, hspan, performed, after, hperforms, ?_⟩
    rcases hcases performed after hperforms with hunmatched | ⟨m, rule, -, hrule, hid, -⟩
    · exact hunmatched
    · exact absurd hid (hdeclared rule (List.mem_of_getElem? hrule))

/-- Two letters, declared with the identification of invalid bytes. -/
def invalidLetters : LexerDefinition := (empty.addRule (Rule.simple "ab" TokenId.invalid)).2

/-- The declaration succeeds, and then a match of the rule is answered as an invalid token of two
bytes. -/
theorem invalid_twoBytes :
    (empty.addRule (Rule.simple "ab" TokenId.invalid)).1 = .ok 0 ∧
      ∃ l t, invalidLetters.build = .ok l ∧
        (l.call (Cursor.start (bytesOf "ab") 0) .advance).1 = some t ∧
        t.isInvalid = true ∧ (t.start, t.stop, t.state) = (0, 2, 0) ∧
        invalidLetters.ActiveIn 0 t.state ∧
        invalidLetters.MatchesBetween (bytesOf "ab") t.start 0 t.stop := by
  have hanswer : (match invalidLetters.build with
      | .ok l => some
        ((l.call (Cursor.start (bytesOf "ab") 0) .advance).1.map
            fun t => (t.isInvalid, t.start, t.stop, t.state),
          l.longestMatch (bytesOf "ab") 0 0)
      | .error _ => none) = some (some (true, 0, 2, 0), some (0, 2)) := by
    decide +kernel
  refine ⟨rfl, ?_⟩
  cases hbuild : invalidLetters.build with
  | error e =>
    rw [hbuild] at hanswer
    cases hanswer
  | ok l =>
    rw [hbuild] at hanswer
    obtain ⟨hcall, hlongest⟩ := Prod.mk.inj (Option.some.inj hanswer)
    obtain ⟨t, ht, hspan⟩ := Option.map_eq_some_iff.1 hcall
    simp only [Prod.mk.injEq] at hspan
    obtain ⟨hinvalid, hstart, hstop, hstate⟩ := hspan
    have hmatch := Lexer.isLongest_active hbuild (bytesOf "ab") (Nat.zero_le _)
      (show 0 < invalidLetters.numStates by decide)
    rw [hlongest] at hmatch
    refine ⟨l, t, rfl, ht, hinvalid, ?_⟩
    rw [hstart, hstop, hstate]
    exact ⟨rfl, hmatch.1⟩

end LexerDefinition

end FrontEnd
