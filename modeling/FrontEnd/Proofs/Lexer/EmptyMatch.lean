import FrontEnd.Proofs.Lexer.Match

/-!
# Matches of the empty string

Whether a rule can match the empty string is read off its patterns when it is resolved.  The test
is exact, so unless the options allow such matches, a lexer that has been built finds none.

## Main Definitions

* `stringsOf` — the strings that a pattern and an end pattern match
* `LexerDefinition.PatternsRead` — the patterns of a rule can be read

## Main Statements

* `LexerDefinition.matchesEmpty_iff` — the test is exact
* `LexerDefinition.resolve_eq_matchesEmpty_iff` — the rules that are refused for it
* `LexerDefinition.no_empty_match` — nothing else is matched behind a build
-/

namespace FrontEnd

/-- The strings that a pattern matches, up to the first occurrence of an end pattern if there is
one. -/
def stringsOf (start : Regex) (stop : Option Regex) : Language UInt8 :=
  start.node.language * match stop with
    | none => 1
    | some last => untilFirst last.node.language

namespace LexerDefinition

/-- The patterns of a rule can be read, and there are no anchors between the two. -/
structure PatternsRead (d : LexerDefinition) (rule : Rule) (start : Regex) (stop : Option Regex) :
    Prop where
  parse_start : Regex.parse d.flags d.named rule.pattern = .ok start
  stopRead : d.StopRead rule.stop stop
  unanchored : ∀ last ∈ stop, start.atLineEnd = false ∧ last.atLineStart = false

variable {d : LexerDefinition}

/-- The test tells whether the empty string is matched. -/
theorem matchesEmpty_iff {start : Regex} {stop : Option Regex} :
    matchesEmpty start stop = true ↔ [] ∈ stringsOf start stop := by
  unfold matchesEmpty stringsOf Regex.nullable
  rw [Bool.and_eq_true, nil_mem_mul_iff, Node.nullable_iff]
  cases stop with
  | none => simp
  | some last => rw [nil_mem_untilFirst_iff, Node.nullable_iff]

/-! ### Rules that are refused

Resolving a rule goes through its stages in order, and the test for the empty string is one of them.
Errors of the other stages have other faults, so the fault tells that it was this test which has
failed. -/

/-- A pattern that is parsed is read. -/
theorem readPattern_of_parse {id : Nat} {pattern : String} {r : Regex}
    (h : Regex.parse d.flags d.named pattern = .ok r) : d.readPattern id pattern = .ok r := by
  unfold readPattern
  rw [h]

/-- An end pattern is read, as it is one of the patterns of the rule. -/
theorem PatternsRead.readStop {rule : Rule} {start : Regex} {stop : Option Regex}
    (h : d.PatternsRead rule start stop) (id : Nat) :
    d.readStop id rule.pattern start rule.stop = .ok stop := by
  have hread := h.stopRead
  cases hrule : rule.stop with
  | none =>
    cases stop with
    | none => rfl
    | some last =>
      rw [hrule] at hread
      exact hread.elim
  | some pattern =>
    cases stop with
    | none =>
      rw [hrule] at hread
      exact hread.elim
    | some last =>
      rw [hrule] at hread
      obtain ⟨hstart, hlast⟩ := h.unanchored last rfl
      have hpattern : d.readPattern id pattern = .ok last := readPattern_of_parse hread
      unfold LexerDefinition.readStop
      simp [hstart, hlast, hpattern]

/-- A reference can only fail because its lexer state is unknown. -/
theorem exists_of_resolveState {rule : Nat} {ref : StateRef} {e : LexerFault}
    (h : d.resolveState rule ref = .error e) : ∃ name, e = .unknownState rule name := by
  unfold resolveState at h
  split at h <;> split at h <;> cases h
  · exact ⟨_, rfl⟩
  · exact ⟨_, rfl⟩

/-- Lexer states are refused for unknown names only. -/
theorem exists_of_resolveStates {rule : Nat} {refs : List StateRef} {known : List Nat}
    {e : LexerFault} (h : d.resolveStates rule known refs = .error e) :
    ∃ name, e = .unknownState rule name := by
  induction refs generalizing known with
  | nil => cases h
  | cons ref refs ih =>
    unfold resolveStates at h
    split at h
    · next e' he =>
      cases h
      exact exists_of_resolveState he
    · exact ih h

/-- A scope fails to be resolved only because of a name that is unknown. -/
theorem exists_of_resolveScope {rule : Nat} {scope : RuleScope} {e : LexerFault}
    (h : d.resolveScope rule scope = .error e) : ∃ name, e = .unknownState rule name := by
  cases scope with
  | all => cases h
  | states refs => exact exists_of_resolveStates h

/-- A destination fails to be resolved only because of a name that is unknown. -/
theorem exists_of_resolveDestination {rule : Nat} {destination : Destination} {e : LexerFault}
    (h : d.resolveDestination rule destination = .error e) :
    ∃ name, e = .unknownState rule name := by
  have hmap : ∀ (ref : StateRef) (change : Nat → StateChange),
      (d.resolveState rule ref).map change = .error e → ∃ name, e = .unknownState rule name := by
    intro ref change h
    cases hstate : d.resolveState rule ref with
    | ok s =>
      rw [hstate] at h
      cases h
    | error e' =>
      rw [hstate] at h
      cases h
      exact exists_of_resolveState hstate
  cases destination with
  | stay => cases h
  | goto ref => exact hmap ref _ h
  | push ref => exact hmap ref _ h
  | pop => cases h

/-- **A rule whose patterns can be read is refused** as matching the empty string exactly when it
does so and the options do not allow it. -/
theorem resolve_eq_matchesEmpty_iff {rule : Rule} {start : Regex} {stop : Option Regex}
    (h : d.PatternsRead rule start stop) (id : Nat) :
    d.resolve id rule = .error (.matchesEmpty id) ↔
      [] ∈ stringsOf start stop ∧ d.flags.matchEmpty = false := by
  rw [← matchesEmpty_iff]
  unfold resolve
  simp only [readPattern_of_parse h.parse_start, h.readStop]
  split
  · next htest => simpa using htest
  · next htest =>
    -- behind the test, only a lexer state can be faulty
    rw [Bool.and_eq_true, Bool.not_eq_true'] at htest
    refine iff_of_false ?_ htest
    split
    · next e he =>
      rintro ⟨⟩
      obtain ⟨name, hname⟩ := exists_of_resolveScope he
      cases hname
    · split
      · next e he =>
        rintro ⟨⟩
        obtain ⟨name, hname⟩ := exists_of_resolveDestination he
        cases hname
      · exact fun h => nomatch h

/-! ### Lexers that are built

Behind a build each rule has passed the test, so the languages of the patterns do not have the empty
string, and a longest match has a byte. -/

/-- A resolved rule matches the empty string only if the options allow it. -/
theorem nil_notMem_language_of_resolve (hflags : d.flags.matchEmpty = false) {id : Nat}
    {rule : Rule} {r : ResolvedRule} (h : d.resolve id rule = .ok r) : [] ∉ r.language := by
  have htest : matchesEmpty r.start r.stop = false := by
    obtain ⟨hstart, hstop, -⟩ := stages_of_resolve h
    unfold resolve at h
    simp only [hstart, hstop, hflags, Bool.not_false, Bool.and_true] at h
    split at h
    · cases h
    · next htest => exact Bool.eq_false_iff.2 htest
  intro hnil
  exact absurd (matchesEmpty_iff.2 hnil) (Bool.eq_false_iff.1 htest)

/-- Every match of a lexer has at least one byte, unless the options allow others. -/
theorem lt_of_longestMatch {l : Lexer} (hflags : d.flags.matchEmpty = false)
    (hbuild : d.build = .ok l) {input : List UInt8} {start state rule stop : Nat}
    (h : l.longestMatch input start state = some (rule, stop)) : start < stop := by
  obtain ⟨resolved, hresolved, rfl⟩ := exists_of_build hbuild
  obtain ⟨⟨rule', length⟩, hmatch, heq⟩ := Option.map_eq_some_iff.1 h
  obtain ⟨rfl, rfl⟩ := Prod.mk.inj heq
  obtain ⟨-, -, r, hr, hw⟩ := Lexer.exists_of_matchAhead hresolved hmatch
  obtain ⟨rule, -, hrule⟩ := (getElem?_of_resolveFrom hresolved).1 hr
  have hpos : length ≠ 0 := by
    rintro rfl
    exact nil_notMem_language_of_resolve hflags hrule hw
  omega

/-- **No match is empty unless the options allow it.**  An expression is nullable exactly when it
matches the empty string.  Without the option for empty matches, a rule whose patterns can be read
is refused as matching the empty string exactly when its patterns do, and a lexer that has been
built finds only matches of at least one byte, in any lexer state and at any offset of any input. -/
theorem no_empty_match :
    (∀ t : Node, t.nullable = true ↔ [] ∈ t.language) ∧
      ∀ d : LexerDefinition, d.flags.matchEmpty = false →
        (∀ (id : Nat) (rule : Rule) (start : Regex) (stop : Option Regex),
          d.PatternsRead rule start stop →
            (d.resolve id rule = .error (.matchesEmpty id) ↔ [] ∈ stringsOf start stop)) ∧
        ∀ l, d.build = .ok l → ∀ (input : List UInt8) (start state rule stop : Nat),
          l.longestMatch input start state = some (rule, stop) → start < stop := by
  refine ⟨Node.nullable_iff, fun d hflags => ⟨?_, ?_⟩⟩
  · intro id rule start stop hread
    rw [resolve_eq_matchesEmpty_iff hread, and_iff_left hflags]
  · intro l hbuild input start state rule stop h
    exact lt_of_longestMatch hflags hbuild h

/-- Numbers with an optional fraction. -/
def numbers : LexerDefinition :=
  { LexerDefinition.empty with rules := [Rule.simple "[0-9]+([.][0-9]*)?" 300] }

/-- A number has a byte at least, and a rule from any number of letters to the end of an optional
word is refused. -/
theorem no_empty_match_numbers :
    (∃ l, numbers.build = .ok l ∧ l.longestMatch (bytesOf "x12.5") 1 0 = some (0, 5) ∧ 1 < 5) ∧
      ∃ start last, numbers.PatternsRead (Rule.range "a*" "(end)?$" 301) start (some last) ∧
        numbers.resolve 7 (Rule.range "a*" "(end)?$" 301) = .error (.matchesEmpty 7) ∧
          [] ∈ stringsOf start (some last) := by
  obtain ⟨-, hnumbers⟩ := no_empty_match
  obtain ⟨hrefused, hmatches⟩ := hnumbers numbers rfl
  constructor
  · have hmatch : (match numbers.build with
        | .ok l => l.longestMatch (bytesOf "x12.5") 1 0
        | .error _ => none) = some (0, 5) := by decide +kernel
    cases hbuild : numbers.build with
    | error e =>
      rw [hbuild] at hmatch
      cases hmatch
    | ok l =>
      rw [hbuild] at hmatch
      exact ⟨l, rfl, hmatch, hmatches l hbuild _ _ _ _ _ hmatch⟩
  · have hread : (match Regex.parse numbers.flags numbers.named "a*",
          Regex.parse numbers.flags numbers.named "(end)?$" with
        | .ok start, .ok last => some (start.atLineEnd, last.atLineStart)
        | _, _ => none) = some (false, false) := by decide +kernel
    have hfault : (match numbers.resolve 7 (Rule.range "a*" "(end)?$" 301) with
        | .ok _ => none
        | .error e => some e) = some (.matchesEmpty 7) := by decide +kernel
    split at hread
    · next start last hstart hlast =>
      obtain ⟨hend, hbegin⟩ := Prod.mk.inj (Option.some.inj hread)
      have hpatterns : numbers.PatternsRead (Rule.range "a*" "(end)?$" 301) start (some last) := by
        refine ⟨hstart, hlast, ?_⟩
        rintro _ ⟨⟩
        exact ⟨hend, hbegin⟩
      have hresolve : numbers.resolve 7 (Rule.range "a*" "(end)?$" 301) =
          .error (.matchesEmpty 7) := by
        split at hfault
        · cases hfault
        · next e he => rw [he, Option.some.inj hfault]
      exact ⟨start, last, hpatterns, hresolve, (hrefused 7 _ _ _ hpatterns).1 hresolve⟩
    · cases hread

end LexerDefinition

end FrontEnd
