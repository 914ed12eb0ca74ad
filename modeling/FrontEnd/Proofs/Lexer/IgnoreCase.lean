import FrontEnd.Proofs.Lexer.Respects
import FrontEnd.Proofs.Regex.IgnoreCase

/-!
# Lexers that ignore the case of letters

When a lexer is built to ignore the case of letters, no set on an edge of its automaton tells the
cases of a letter apart.  So the cases of a letter belong to one group, and inputs that differ in
the case of letters only are read alike, whatever is called on their cursors.

## Main Statements

* `LexerDefinition.respects_sameLetter_of_build` — the lexer does not tell the cases apart
* `LexerDefinition.runs_agree_of_ignoreCase` — runs over inputs that differ in the case of letters
  only agree
-/

namespace FrontEnd

open Ascii

namespace LexerDefinition

variable {d : LexerDefinition} {l : Lexer}

/-- The patterns of a rule do not tell the cases apart. -/
theorem respects_sameLetter_of_resolve (hflags : d.flags.ignoreCase = true) {id : Nat} {rule : Rule}
    {r : ResolvedRule} (h : d.resolve id rule = .ok r) : r.Respects SameLetter := by
  obtain ⟨hstart, hstop, -⟩ := stages_of_resolve h
  refine ⟨Regex.respects_sameLetter_of_parse hflags (parse_of_readPattern hstart), ?_⟩
  intro stop hmem
  have hread := stopRead_of_readStop hstop
  rw [hmem] at hread
  cases hpattern : rule.stop with
  | none =>
    rw [hpattern] at hread
    cases hread
  | some pattern =>
    rw [hpattern] at hread
    exact Regex.respects_sameLetter_of_parse hflags hread

/-- **A lexer that is built to ignore the case of letters does not tell the cases apart.** -/
theorem respects_sameLetter_of_build (hflags : d.flags.ignoreCase = true)
    (hbuild : d.build = .ok l) : l.Respects SameLetter := by
  obtain ⟨resolved, hresolved, rfl⟩ := exists_of_build hbuild
  have hrules : ∀ r ∈ resolved, r.Respects SameLetter := by
    intro r hr
    obtain ⟨id, hid⟩ := List.mem_iff_getElem?.1 hr
    obtain ⟨rule, -, hresolve⟩ := (getElem?_of_resolveFrom hresolved).1 hid
    exact respects_sameLetter_of_resolve hflags hresolve
  have hnfa := Nfa.respects_ofRules d.states.size hrules
  refine ⟨fun a b hab => ?_, ?_⟩
  · exact ByteGroups.group_eq_of_respects (fun _ => hnfa.of_mem_moveSets) hab
  · intro a b hab
    rcases sameLetter_iff.1 hab with rfl | rfl
    · rfl
    · exact (otherCase_eq_iff (by decide)).symm

/-- **Case is ignored everywhere**: when two inputs differ in the case of ASCII letters only,
cursors over them that start in the same lexer state answer the same calls with tokens of the same
kinds, offsets, user data and lexer states, and end at the same place with the same lexer state and
stack. -/
theorem runs_agree_of_ignoreCase (hflags : d.flags.ignoreCase = true) (hbuild : d.build = .ok l)
    {input input' : List UInt8} (hinput : List.Forall₂ SameLetter input input') (state : Nat) :
    (∀ calls, Cursor.RunsAgree SameLetter (l.calls (Cursor.start input state) calls)
        (l.calls (Cursor.start input' state) calls)) ∧
      Cursor.RunsAgree SameLetter (l.tokens (Cursor.start input state))
        (l.tokens (Cursor.start input' state)) := by
  have hl := respects_sameLetter_of_build hflags hbuild
  have hstart := Cursor.agrees_start hinput state
  exact ⟨hl.calls hstart, hl.tokens hstart⟩

/-- A keyword in quotes, words by a named pattern, and a negated class whose matches are dropped. -/
def keywordsAndWords : LexerDefinition :=
  let d := (empty.namePattern "Letter" "[a-z]").2
  let d := (d.addRule (Rule.simple "\"if\"" 300)).2
  let d := (d.addRule (Rule.simple "\x7bLetter\x7d+" 301)).2
  (d.addRule (Rule.skip "[^a-z0-9]+")).2.setFlags { Flags.none with ignoreCase := true }

/-- The keyword and a longer word are found in any case, and letters are not dropped. -/
theorem runs_agree_of_ignoreCase_keywordsAndWords :
    ∃ l, keywordsAndWords.build = .ok l ∧
      (l.tokens (Cursor.start (bytesOf "IF iFs 1") 0)).1.map (fun t => (t.id, t.start, t.stop)) =
        [(300, 0, 2), (301, 3, 6), (TokenId.invalid, 7, 8)] ∧
      (∀ calls, Cursor.RunsAgree SameLetter
        (l.calls (Cursor.start (bytesOf "IF iFs 1") 0) calls)
        (l.calls (Cursor.start (bytesOf "if IFS 1") 0) calls)) ∧
      Cursor.RunsAgree SameLetter (l.tokens (Cursor.start (bytesOf "IF iFs 1") 0))
        (l.tokens (Cursor.start (bytesOf "if IFS 1") 0)) := by
  have hanswers : keywordsAndWords.build.map (fun l =>
      (l.tokens (Cursor.start (bytesOf "IF iFs 1") 0)).1.map fun t => (t.id, t.start, t.stop)) =
        .ok [(300, 0, 2), (301, 3, 6), (TokenId.invalid, 7, 8)] := by
    decide +kernel
  have hinput : List.Forall₂ SameLetter (bytesOf "IF iFs 1") (bytesOf "if IFS 1") := by
    unfold SameLetter
    decide +kernel
  obtain ⟨l, hbuild, htokens⟩ := exists_of_map_eq_ok hanswers
  exact ⟨l, hbuild, htokens, runs_agree_of_ignoreCase rfl hbuild hinput 0⟩

end LexerDefinition

end FrontEnd
