import FrontEnd.Proofs.Names
import FrontEnd.Regex.Pattern
import Mathlib.Tactic.Basic

/-!
# Lexemes one at a time

The assembly of a tree passes over the lexemes and keeps the groups that are open.  One lexeme
changes these groups or is refused, whatever stands behind it, and a quantifier looks at the next
lexeme besides.

## Main Definitions

* `OpenGroups` — the groups that are open
* `Lexeme.apply` — what one lexeme does to the groups that are open
* `Lexeme.check` — what has to be looked at behind a lexeme
* `referencesOf`, `Regex.references` — the names that lexemes and patterns refer to
* `Regex.readWith` — the reading of a pattern with given trees for its references

## Main Statements

* `assemble_cons` — the assembly is one step, and then the assembly of the other lexemes
* `assemble_congr` — the assembly depends only on the expansions of the names that are referred to
* `exists_expand_of_assemble` — what is assembled has an expansion for each of these names
* `Regex.dollar_mem_of_parse` — only a dollar sign binds a pattern to the end of a line

## Design Notes

`Lexeme.apply` is one step of the assembly and leaves out what depends on the lexemes behind it.
There are two things that do: a question mark behind a quantifier is refused, and a dollar sign at
the end of the outermost group ends the pattern.  Each of them is a function of its own, so that a
statement about the assembly needs one lemma about `Lexeme.apply` and two short ones.
-/

namespace FrontEnd

/-- The groups that are open. -/
structure OpenGroups where
  /-- The groups around the current one, with the offset at which the next inner one was opened. -/
  outer : List (Nat × OpenGroup)
  current : OpenGroup

namespace OpenGroups

/-- The groups with one more item in the current one. -/
def push (g : OpenGroups) (node : Node) : OpenGroups := { g with current := g.current.push node }

/-- Repeats the latest item of the current group. -/
def repeatLast (g : OpenGroups) (position : Nat) (bounds : Option (Nat × Option Nat)) :
    Except PatternError OpenGroups :=
  match g.current.repeatLast bounds with
  | .error fault => .error ⟨position, fault⟩
  | .ok current => .ok { g with current := current }

/-- Closes the current group. -/
def close (g : OpenGroups) (position : Nat) : Except PatternError OpenGroups :=
  match g.outer with
  | [] => .error ⟨position, .unbalancedParen⟩
  | (_, around) :: outer => .ok ⟨outer, around.push g.current.close⟩

end OpenGroups

namespace Lexeme

/-- What a lexeme at an offset does to the groups that are open. -/
def apply (expand : String → Except PatternFault Node) (position : Nat) (g : OpenGroups) :
    Lexeme → Except PatternError OpenGroups
  | .malformed e => .error e
  | .set s => .ok (g.push (.set s))
  | .text items => .ok (g.push (Node.concatOf (items.map Node.set)))
  | .reference name =>
    match expand name with
    | .error fault => .error ⟨position, fault⟩
    | .ok node => .ok (g.push node)
  | .opening => .ok ⟨(position, g.current) :: g.outer, OpenGroup.start⟩
  | .closing => g.close position
  | .bar => .ok { g with current := g.current.nextAlternative }
  | .caret => .error ⟨position, .misplacedAnchor 0x5e⟩
  | .dollar => .error ⟨position, .misplacedAnchor 0x24⟩
  | .question => g.repeatLast position (some (0, some 1))
  | .quantifier bounds => g.repeatLast position bounds

/-- Whether a lexeme is the anchor that ends a pattern. -/
def endsPattern (top : Bool) (rest : List (Nat × Lexeme)) (g : OpenGroups) : Lexeme → Bool
  | .dollar => top && g.outer.isEmpty && rest.isEmpty
  | _ => false

/-- Behind a quantifier no question mark may stand. -/
def check (rest : List (Nat × Lexeme)) : Lexeme → Except PatternError Unit
  | .question => checkGreedy rest
  | .quantifier _ => checkGreedy rest
  | _ => .ok ()

/-- The name that a lexeme refers to. -/
def reference? : Lexeme → Option String
  | .reference name => some name
  | _ => none

end Lexeme

/-- The names that lexemes refer to. -/
def referencesOf (lexemes : List (Nat × Lexeme)) : List String :=
  lexemes.filterMap fun l => l.2.reference?

/-! ### Dollar signs

A lexeme is a dollar sign only when its character is one, so a pattern without such a character has
no anchor at its end. -/

theorem ofResult_ne_dollar {α : Type} (make : α → Lexeme) (hmake : ∀ a, make a ≠ .dollar)
    (result : Except PatternError (α × Nat)) : (Lexeme.ofResult make result).1 ≠ .dollar := by
  cases result with
  | error e => nofun
  | ok p => exact hmake p.1

/-- What begins with a brace is no dollar sign. -/
theorem braceAt_ne_dollar (start : Nat) (text : PatternText) :
    (braceAt start text).1 ≠ .dollar := by
  have hreference : (referenceAt start text).1 ≠ .dollar := by
    unfold referenceAt
    dsimp only
    split <;> nofun
  unfold braceAt
  repeat' split
  all_goals first | exact hreference | nofun

/-- A dollar sign is the only byte that is read as the anchor at the end. -/
theorem eq_of_ofPlain_eq_dollar {f : Flags} {start : Nat} {b : UInt8} {text : PatternText}
    (h : (Lexeme.ofPlain f start b text).1 = .dollar) : b = 0x24 := by
  by_contra hb
  have hite : ∀ {c : Prop} [Decidable c] {x y : Lexeme × Nat}, x.1 ≠ .dollar → y.1 ≠ .dollar →
      (if c then x else y).1 ≠ .dollar := by
    intro c _ x y hx hy
    split <;> assumption
  have hset := ofResult_ne_dollar .set (fun _ => nofun) (classAt f start text)
  have htext := ofResult_ne_dollar .text (fun _ => nofun) (textAt f start text)
  refine absurd h ?_
  unfold Lexeme.ofPlain
  iterate 4 refine hite nofun ?_
  rw [if_neg hb]
  iterate 4 refine hite nofun ?_
  exact hite hset (hite htext (hite (braceAt_ne_dollar start text) nofun))

/-- The character of a dollar sign is a dollar sign. -/
theorem eq_plain_of_read_eq_dollar {f : Flags} {start : Nat} {c : PatternChar} {text : PatternText}
    (h : (Lexeme.read f start c text).1 = .dollar) : c = .plain 0x24 := by
  cases c with
  | plain b => rw [eq_of_ofPlain_eq_dollar h]
  | faulty fault => cases h
  | escape e => cases e <;> cases h

/-- A byte that stands for itself is one of the pattern. -/
theorem mem_of_plain_mem {position q : Nat} {b : UInt8} {bytes : List UInt8}
    (h : (q, .plain b) ∈ patternCharsFrom position bytes) : b ∈ bytes := by
  have hescape : ∀ d, escapeOf d ≠ .plain b := by
    intro d
    unfold escapeOf
    repeat' split
    all_goals nofun
  fun_induction patternCharsFrom position bytes
  all_goals grind

/-- A dollar sign among the lexemes is one among the characters. -/
theorem plain_mem_of_dollar_mem {f : Flags} {skip q : Nat} {text : PatternText}
    (h : (q, .dollar) ∈ lexemesAfter f skip text) : (q, .plain 0x24) ∈ text := by
  induction text generalizing skip with
  | nil => cases h
  | cons d text ih =>
    obtain ⟨position, c⟩ := d
    unfold lexemesAfter at h
    split at h
    · exact List.mem_cons_of_mem _ (ih h)
    split at h
    · cases List.mem_singleton.1 h
    next hread =>
    rcases List.mem_cons.1 h with heq | hlater
    · obtain ⟨rfl, rfl⟩ := Prod.mk.inj heq
      rw [eq_plain_of_read_eq_dollar (congrArg Prod.fst hread)]
      exact List.mem_cons_self
    · exact List.mem_cons_of_mem _ (ih hlater)

section Steps

variable {top : Bool} {expand expand' : String → Except PatternFault Node} {position : Nat}
  {lexeme : Lexeme} {rest : List (Nat × Lexeme)} {g next : OpenGroups} {result : Node × Bool}

/-- A quantifier is refused by the group, refused by the next lexeme, or read. -/
theorem assemble_quantifier (bounds : Option (Nat × Option Nat)) :
    assemble top expand ((position, .quantifier bounds) :: rest) g.outer g.current =
      (g.repeatLast position bounds).bind fun next =>
        (checkGreedy rest).bind fun _ => assemble top expand rest next.outer next.current := by
  conv => lhs; unfold assemble
  unfold OpenGroups.repeatLast
  dsimp only
  cases g.current.repeatLast bounds with
  | error fault => rfl
  | ok group => cases checkGreedy rest <;> rfl

/-- **The assembly is one step, and then the assembly of the other lexemes.** -/
theorem assemble_cons :
    assemble top expand ((position, lexeme) :: rest) g.outer g.current =
      if lexeme.endsPattern top rest g then .ok (g.current.close, true)
      else (lexeme.apply expand position g).bind fun next =>
        (lexeme.check rest).bind fun _ => assemble top expand rest next.outer next.current := by
  obtain ⟨outer, current⟩ := g
  cases lexeme with
  | reference name =>
    conv => lhs; unfold assemble
    simp only [Lexeme.endsPattern, Lexeme.apply, Bool.false_eq_true, if_false]
    cases expand name <;> rfl
  | closing => cases outer <;> rfl
  | dollar => rfl
  | question => exact assemble_quantifier (some (0, some 1))
  | quantifier bounds => exact assemble_quantifier bounds
  | _ => rfl

/-- A lexeme whose assembly succeeds ends the pattern, or is followed by lexemes whose assembly
succeeds. -/
theorem assemble_cons_eq_ok (h : assemble top expand ((position, lexeme) :: rest) g.outer
      g.current = .ok result) :
    (lexeme.endsPattern top rest g = true ∧ result = (g.current.close, true)) ∨
      ∃ next, lexeme.endsPattern top rest g = false ∧ lexeme.apply expand position g = .ok next ∧
        lexeme.check rest = .ok () ∧
        assemble top expand rest next.outer next.current = .ok result := by
  rw [assemble_cons] at h
  split at h
  · next hend => exact .inl ⟨hend, (Except.ok.inj h).symm⟩
  · next hend =>
    cases happly : lexeme.apply expand position g with
    | error e =>
      rw [happly] at h
      cases h
    | ok next =>
      rw [happly] at h
      cases hcheck : lexeme.check rest with
      | error e =>
        rw [hcheck] at h
        cases h
      | ok u =>
        rw [hcheck] at h
        exact .inr ⟨next, by simpa using hend, rfl, rfl, h⟩

/-! ### References

The tree depends on what references stand for, and on nothing else besides the lexemes. -/

theorem mem_referencesOf_cons {name : String} :
    name ∈ referencesOf ((position, lexeme) :: rest) ↔
      lexeme.reference? = some name ∨ name ∈ referencesOf rest := by
  simp only [referencesOf, List.mem_filterMap, List.mem_cons, or_and_right, exists_or,
    exists_eq_left]

/-- A step depends on the expansion of the name that the lexeme refers to. -/
theorem Lexeme.apply_congr
    (h : ∀ name, lexeme.reference? = some name → expand name = expand' name) :
    lexeme.apply expand position g = lexeme.apply expand' position g := by
  cases lexeme with
  | reference name =>
    unfold apply
    dsimp only
    rw [h name rfl]
  | _ => rfl

/-- **The assembly depends only on the expansions of the names that are referred to.** -/
theorem assemble_congr {lexemes : List (Nat × Lexeme)}
    (h : ∀ name ∈ referencesOf lexemes, expand name = expand' name) :
    assemble top expand lexemes g.outer g.current =
      assemble top expand' lexemes g.outer g.current := by
  induction lexemes generalizing g with
  | nil =>
    obtain ⟨outer, current⟩ := g
    cases outer <;> rfl
  | cons l rest ih =>
    obtain ⟨position, lexeme⟩ := l
    have hstep : lexeme.apply expand position g = lexeme.apply expand' position g :=
      Lexeme.apply_congr fun name hname => h name (mem_referencesOf_cons.2 (.inl hname))
    have hrest : ∀ name ∈ referencesOf rest, expand name = expand' name :=
      fun name hname => h name (mem_referencesOf_cons.2 (.inr hname))
    rw [assemble_cons, assemble_cons, hstep]
    simp only [ih hrest]

/-- What is assembled has an expansion for each name that is referred to. -/
theorem exists_expand_of_assemble {lexemes : List (Nat × Lexeme)}
    (h : assemble top expand lexemes g.outer g.current = .ok result) :
    ∀ name ∈ referencesOf lexemes, ∃ node, expand name = .ok node := by
  induction lexemes generalizing g with
  | nil => simp [referencesOf]
  | cons l rest ih =>
    obtain ⟨position, lexeme⟩ := l
    intro name hname
    rcases assemble_cons_eq_ok h with ⟨hend, -⟩ | ⟨next, -, happly, -, hrest⟩
    · -- the anchor refers to nothing, and it is the last lexeme
      cases lexeme with
      | dollar =>
        have hlast : rest = [] := by
          simp only [Lexeme.endsPattern, Bool.and_eq_true, List.isEmpty_iff] at hend
          exact hend.2
        subst hlast
        cases hname
      | _ => cases hend
    · rcases mem_referencesOf_cons.1 hname with hname | hname
      · cases lexeme with
        | reference other =>
          obtain rfl := Option.some.inj hname
          unfold Lexeme.apply at happly
          dsimp only at happly
          split at happly
          · cases happly
          · next node hnode => exact ⟨node, hnode⟩
        | _ => cases hname
      · exact ih hrest name hname

/-! ### The end of what is assembled

A dollar sign at the end of a pattern is an anchor, and anywhere else it is an error. -/

/-- What is assembled ends with an anchor only when there is one among the lexemes. -/
theorem exists_dollar_of_assemble {lexemes : List (Nat × Lexeme)} {node : Node}
    (h : assemble top expand lexemes g.outer g.current = .ok (node, true)) :
    ∃ position, (position, .dollar) ∈ lexemes := by
  induction lexemes generalizing g with
  | nil =>
    obtain ⟨outer, current⟩ := g
    cases outer <;> cases h
  | cons l rest ih =>
    obtain ⟨position, lexeme⟩ := l
    rcases assemble_cons_eq_ok h with ⟨hend, -⟩ | ⟨next, -, -, -, hrest⟩
    · cases lexeme with
      | dollar => exact ⟨position, List.mem_cons_self⟩
      | _ => cases hend
    · obtain ⟨other, hmem⟩ := ih hrest
      exact ⟨other, List.mem_cons_of_mem _ hmem⟩

end Steps

/-! ### Patterns

Reading a pattern is cutting it into lexemes and assembling them, with the trees of references
given. -/

section Patterns

variable {f : Flags} {expand expand' : String → Except PatternFault Node}

namespace Regex

/-- Reads the lexemes of a pattern: an anchor at the front, and the tree of the others. -/
def readLexemes (expand : String → Except PatternFault Node) :
    List (Nat × Lexeme) → Except PatternError Regex
  | (_, .caret) :: rest =>
    (assemble true expand rest [] OpenGroup.start).map fun result => ⟨result.1, true, result.2⟩
  | all =>
    (assemble true expand all [] OpenGroup.start).map fun result => ⟨result.1, false, result.2⟩

/-- Reads a pattern with the trees that references stand for. -/
def readWith (f : Flags) (expand : String → Except PatternFault Node) (pattern : String) :
    Except PatternError Regex :=
  if (bytesOf pattern).isEmpty then .error ⟨0, .emptyPattern⟩
  else readLexemes expand (lexemes f (bytesOf pattern))

/-- The names that a pattern refers to. -/
def references (f : Flags) (pattern : String) : List String :=
  referencesOf (lexemes f (bytesOf pattern))

/-- A pattern is read with the expansions of its references. -/
theorem parse_eq_readWith (f : Flags) (named : NamedPatterns) (pattern : String) :
    parse f named pattern = readWith f (expandReference f named named.size []) pattern := by
  unfold parse parseBytes readWith readLexemes
  rfl

/-- Both readings of lexemes assemble all of them, or all but an anchor. -/
theorem exists_readLexemes (all : List (Nat × Lexeme)) :
    ∃ atStart rest, rest <:+ all ∧ referencesOf rest = referencesOf all ∧
      ∀ expand, readLexemes expand all =
        (assemble true expand rest [] OpenGroup.start).map fun result =>
          ⟨result.1, atStart, result.2⟩ := by
  by_cases hcaret : ∃ position rest, all = (position, .caret) :: rest
  · obtain ⟨position, rest, rfl⟩ := hcaret
    exact ⟨true, rest, List.suffix_cons _ _, rfl, fun _ => rfl⟩
  · refine ⟨false, all, List.suffix_refl _, rfl, fun expand => ?_⟩
    unfold readLexemes
    split
    · exact (hcaret ⟨_, _, rfl⟩).elim
    · rfl

/-- The reading depends only on the expansions of the names that are referred to. -/
theorem readWith_congr {pattern : String}
    (h : ∀ name ∈ references f pattern, expand name = expand' name) :
    readWith f expand pattern = readWith f expand' pattern := by
  obtain ⟨atStart, rest, -, hreferences, hread⟩ := exists_readLexemes (lexemes f (bytesOf pattern))
  have hrest : ∀ name ∈ referencesOf rest, expand name = expand' name := by
    rw [hreferences]
    exact h
  have hassemble : assemble true expand rest [] OpenGroup.start =
      assemble true expand' rest [] OpenGroup.start :=
    assemble_congr (g := ⟨[], OpenGroup.start⟩) hrest
  unfold readWith
  rw [hread, hread, hassemble]

/-- A pattern that is read has a tree for each name that it refers to. -/
theorem exists_expand_of_readWith {pattern : String} {r : Regex}
    (h : readWith f expand pattern = .ok r) :
    ∀ name ∈ references f pattern, ∃ node, expand name = .ok node := by
  obtain ⟨atStart, rest, -, hreferences, hread⟩ := exists_readLexemes (lexemes f (bytesOf pattern))
  unfold readWith at h
  split at h
  · cases h
  · rw [hread] at h
    obtain ⟨result, hresult, -⟩ := exists_of_map_eq_ok h
    intro name hname
    exact exists_expand_of_assemble (g := ⟨[], OpenGroup.start⟩) hresult name (hreferences ▸ hname)

/-- A pattern that is anchored at the end of a line is written with a dollar sign. -/
theorem dollar_mem_of_parse {named : NamedPatterns} {pattern : String} {r : Regex}
    (h : parse f named pattern = .ok r) (hend : r.atLineEnd = true) : 0x24 ∈ bytesOf pattern := by
  rw [parse_eq_readWith] at h
  obtain ⟨atStart, rest, hsuffix, -, hread⟩ := exists_readLexemes (lexemes f (bytesOf pattern))
  unfold readWith at h
  split at h
  · cases h
  · rw [hread] at h
    obtain ⟨⟨node, atEnd⟩, hassemble, rfl⟩ := exists_of_map_eq_ok h
    obtain rfl : atEnd = true := hend
    obtain ⟨position, hmem⟩ := exists_dollar_of_assemble (g := ⟨[], OpenGroup.start⟩) hassemble
    exact mem_of_plain_mem (plain_mem_of_dollar_mem (hsuffix.subset hmem))

end Regex

end Patterns

end FrontEnd
