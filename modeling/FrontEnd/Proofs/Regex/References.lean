import FrontEnd.Proofs.Regex.Faults
import Mathlib.Data.List.Perm.Subperm
import Mathlib.Logic.Relation

/-!
# References between patterns

A pattern refers to named patterns, and these refer to others.  The expansion of a reference is
described without a bound, by the bodies that it goes through, and the bounded recursion is compared
with it.

## Main Definitions

* `NamedPatterns.RefersTo` — the body of a name refers to another one
* `NamedPatterns.Expands` — what a reference stands for, or why it stands for nothing
* `Regex.Parses` — what a pattern is read to when its references are expanded without a bound
* `Regex.Reaches` — the names that a pattern refers to directly or through others

## Main Statements

* `NamedPatterns.expands_iff` — each reference has one expansion, which the bounded recursion finds
* `NamedPatterns.Expands.mono` — an expansion does not depend on the names around it
* `NamedPatterns.Expands.defined_and_acyclic` — an expansion goes through names without a cycle
* `NamedPatterns.Expands.traces` — a fault of an expansion is a fault of a name that is reached
* `Regex.parse_references` — a pattern is read to the end, whatever its references are

## Design Notes

The recursion stops at the first fault, and an expansion asks for all the names that a body refers
to.  As each of them has an expansion, this is no restriction.
-/

namespace FrontEnd

/-- The tree of a body, given the trees of the names it refers to. -/
def Regex.expandBody (f : Flags) (expand : String → Except PatternFault Node) (name body : String) :
    Except PatternFault Node :=
  match assemble false expand (lexemes f (bytesOf body)) [] OpenGroup.start with
  | .error e => .error (PatternFault.ofBody name e)
  | .ok (node, _) => .ok node

namespace NamedPatterns

/-- The body of the first name refers to the second one. -/
def RefersTo (f : Flags) (named : NamedPatterns) (name other : String) : Prop :=
  ∃ body, named.get? name = some body ∧ other ∈ Regex.references f body

/-- What a name stands for inside the bodies of the active names, which can not be referred to
again. -/
inductive Expands (f : Flags) (named : NamedPatterns) :
    List String → String → Except PatternFault Node → Prop
  | unknown {active : List String} {name : String} (hname : named.get? name = none) :
    Expands f named active name (.error (.unknownReference name))
  | recursive {active : List String} {name body : String} (hbody : named.get? name = some body)
    (hactive : name ∈ active) : Expands f named active name (.error (.recursiveReference name))
  | body {active : List String} {name body : String} {expand : String → Except PatternFault Node}
    (hbody : named.get? name = some body) (hactive : name ∉ active)
    (hinner : ∀ other ∈ Regex.references f body,
      Expands f named (name :: active) other (expand other)) :
    Expands f named active name (Regex.expandBody f expand name body)

section Expansion

variable {f : Flags} {named : NamedPatterns} {active : List String} {name other : String}
  {result : Except PatternFault Node}

/-! ### The bounded recursion

The bound counts the names that have not been expanded on the way.  A cycle is found before the
bound is used up, so that the recursion ends with what the unbounded expansion says. -/

/-- A body is expanded by the expansions of the names that it refers to. -/
theorem Regex.expandBody_congr {expand expand' : String → Except PatternFault Node} {body : String}
    (h : ∀ other ∈ Regex.references f body, expand other = expand' other) :
    Regex.expandBody f expand name body = Regex.expandBody f expand' name body := by
  have hassemble : assemble false expand (lexemes f (bytesOf body)) [] OpenGroup.start =
      assemble false expand' (lexemes f (bytesOf body)) [] OpenGroup.start :=
    assemble_congr (g := ⟨[], OpenGroup.start⟩) h
  unfold Regex.expandBody
  rw [hassemble]

/-- A name with a body is one of the names. -/
theorem mem_names_of_get? {body : String} (h : named.get? name = some body) :
    name ∈ named.names.toList := by
  by_contra habsent
  have hindex : named.indexOf? name = none := NameList.indexOf?_eq_none_iff.2 habsent
  rw [NameTable.get?, hindex] at h
  cases h

theorem length_le_size {names : List String} (hnodup : names.Nodup)
    (hnames : ∀ name ∈ names, name ∈ named.names.toList) : names.length ≤ named.size := by
  have hle : names.length ≤ named.names.toList.length :=
    (List.subperm_of_subset hnodup hnames).length_le
  simpa [NameTable.size, NameList.size, NameList.toList] using hle

/-- The recursion finds an expansion when its bound exceeds the number of the other names. -/
theorem expands_expandReference {bound : Nat} (hnodup : active.Nodup)
    (hnames : ∀ name ∈ active, name ∈ named.names.toList)
    (hbound : named.size ≤ bound + active.length) :
    Expands f named active name (expandReference f named bound active name) := by
  induction bound generalizing active name with
  | zero =>
    unfold expandReference
    split
    · next hname => exact .unknown hname
    · next body hbody =>
      split
      · next hactive => exact .recursive hbody (List.contains_iff_mem.1 hactive)
      · next hactive =>
        -- with this name there would be more active names than names
        have hfresh : name ∉ active := fun hmem => hactive (List.contains_iff_mem.2 hmem)
        have hlength := length_le_size (List.nodup_cons.2 ⟨hfresh, hnodup⟩)
          (List.forall_mem_cons.2 ⟨mem_names_of_get? hbody, hnames⟩)
        rw [List.length_cons] at hlength
        omega
  | succ bound ih =>
    unfold expandReference
    split
    · next hname => exact .unknown hname
    · next body hbody =>
      split
      · next hactive => exact .recursive hbody (List.contains_iff_mem.1 hactive)
      · next hactive =>
        have hfresh : name ∉ active := fun hmem => hactive (List.contains_iff_mem.2 hmem)
        refine .body hbody hfresh fun other _ => ih (List.nodup_cons.2 ⟨hfresh, hnodup⟩)
          (List.forall_mem_cons.2 ⟨mem_names_of_get? hbody, hnames⟩) ?_
        rw [List.length_cons]
        omega

/-- A name has only one expansion. -/
theorem Expands.unique {result' : Except PatternFault Node} (h : Expands f named active name result)
    (h' : Expands f named active name result') : result = result' := by
  induction h generalizing result' with
  | unknown hname =>
    cases h' with
    | unknown => rfl
    | recursive hbody => exact nomatch hname.symm.trans hbody
    | body hbody => exact nomatch hname.symm.trans hbody
  | recursive hbody hactive =>
    cases h' with
    | unknown hname => exact nomatch hname.symm.trans hbody
    | recursive => rfl
    | body _ hfresh => exact absurd hactive hfresh
  | body hbody hfresh _ ih =>
    cases h' with
    | unknown hname => exact nomatch hname.symm.trans hbody
    | recursive _ hactive => exact absurd hactive hfresh
    | body hbody' _ hinner' =>
      obtain rfl := Option.some.inj (hbody.symm.trans hbody')
      exact Regex.expandBody_congr fun other hother => ih other hother (hinner' other hother)

/-- **Each reference has one expansion, which the bounded recursion finds.** -/
theorem expands_iff :
    Expands f named [] name result ↔ expandReference f named named.size [] name = result := by
  have hfinds : Expands f named [] name (expandReference f named named.size [] name) :=
    expands_expandReference List.nodup_nil (List.forall_mem_nil _) (Nat.le_refl _)
  constructor
  · exact hfinds.unique
  · rintro rfl
    exact hfinds

/-! ### What an expansion goes through

The names behind an expansion form a graph without cycles when it succeeds.  When it fails, the
fault is found by following references to the name that is at fault. -/

/-- A body that is expanded has an expansion for each name that it refers to. -/
theorem exists_of_expandBody_eq_ok {expand : String → Except PatternFault Node} {body : String}
    {node : Node} (h : Regex.expandBody f expand name body = .ok node) :
    ∀ other ∈ Regex.references f body, ∃ inner, expand other = .ok inner := by
  unfold Regex.expandBody at h
  split at h
  · cases h
  · next hassemble =>
    exact exists_expand_of_assemble (g := ⟨[], OpenGroup.start⟩) hassemble

/-- A reference that has a tree is expanded by the assembly of its body. -/
theorem Expands.exists_body {node : Node} (h : Expands f named active name (.ok node)) :
    ∃ body expand atEnd, named.get? name = some body ∧
      (∀ other ∈ Regex.references f body,
        Expands f named (name :: active) other (expand other)) ∧
      assemble false expand (lexemes f (bytesOf body)) [] OpenGroup.start = .ok (node, atEnd) := by
  generalize hresult : Except.ok node = result at h
  cases h with
  | unknown => cases hresult
  | recursive => cases hresult
  | @body _ _ body expand hbody _ hinner =>
    unfold Regex.expandBody at hresult
    split at hresult
    · cases hresult
    · next node' atEnd hassemble =>
      obtain rfl := Except.ok.inj hresult
      exact ⟨body, expand, atEnd, hbody, hinner, hassemble⟩

/-- **An expansion goes through names that are defined and not active, without a cycle.** -/
theorem Expands.defined_and_acyclic (h : Expands f named active name result) {node : Node}
    (hok : result = .ok node) (hreach : Relation.ReflTransGen (RefersTo f named) name other) :
    (∃ body, named.get? other = some body) ∧ other ∉ active ∧
      ¬ Relation.TransGen (RefersTo f named) other other := by
  induction h generalizing other node with
  | unknown => cases hok
  | recursive => cases hok
  | @body active name body expand hbody hfresh _ ih =>
    have hinner : ∀ {first last}, RefersTo f named name first →
        Relation.ReflTransGen (RefersTo f named) first last →
        (∃ body, named.get? last = some body) ∧ last ∉ name :: active ∧
          ¬ Relation.TransGen (RefersTo f named) last last := by
      rintro first last ⟨body', hbody', hfirst⟩ hlast
      obtain rfl := Option.some.inj (hbody.symm.trans hbody')
      obtain ⟨inner, hnode⟩ := exists_of_expandBody_eq_ok hok first hfirst
      exact ih first hfirst hnode hlast
    rcases Relation.ReflTransGen.cases_head hreach with rfl | ⟨first, hfirst, hlast⟩
    · refine ⟨⟨body, hbody⟩, hfresh, fun hcycle => ?_⟩
      -- the body would be expanded again while its name is active
      obtain ⟨first, hfirst, hback⟩ := Relation.TransGen.head'_iff.1 hcycle
      exact (hinner hfirst hback).2.1 (List.mem_cons_self ..)
    · obtain ⟨hdefined, hother, hacyclic⟩ := hinner hfirst hlast
      exact ⟨hdefined, fun hmem => hother (List.mem_cons_of_mem _ hmem), hacyclic⟩

/-- A reference that has a tree has the same one when fewer names are active. -/
theorem Expands.mono (h : Expands f named active name result) {node : Node}
    (hok : result = .ok node) {fewer : List String} (hfewer : fewer ⊆ active) :
    Expands f named fewer name (.ok node) := by
  induction h generalizing fewer node with
  | unknown => cases hok
  | recursive => cases hok
  | body hbody hactive _ ih =>
    rw [← hok]
    refine .body hbody (fun hmem => hactive (hfewer hmem)) fun other hother => ?_
    obtain ⟨inner, hnode⟩ := exists_of_expandBody_eq_ok hok other hother
    rw [hnode]
    exact ih other hother hnode (List.cons_subset_cons _ hfewer)

/-- A fault of a reference is a fault of a name that is reached: the reference itself is not
defined, the name is active or on a cycle, or its body has the fault. -/
def Traces (f : Flags) (named : NamedPatterns) (active : List String) (name : String) :
    PatternFault → Prop
  | .unknownReference other => other = name ∧ named.get? other = none
  | .recursiveReference other =>
    Relation.ReflTransGen (RefersTo f named) name other ∧
      (other ∈ active ∨ Relation.TransGen (RefersTo f named) other other)
  | .inBody other position fault =>
    Relation.ReflTransGen (RefersTo f named) name other ∧
      ∃ body, named.get? other = some body ∧ position ≤ (bytesOf body).length ∧
        (fault.IsOwn ∨ ∃ unknown ∈ Regex.references f body,
          fault = .unknownReference unknown ∧ named.get? unknown = none)
  | _ => False

/-- A fault of a body itself is reported with the name of the body. -/
theorem ofBody_of_isOwn {e : PatternError} (h : e.fault.IsOwn) :
    PatternFault.ofBody name e = .inBody name e.position e.fault := by
  obtain ⟨position, fault⟩ := e
  cases fault <;> first | rfl | exact h.elim

/-- A fault that a body takes over from a name it refers to is traced back one step. -/
theorem Traces.ofBody {inner body : String} {e : PatternError}
    (h : Traces f named (name :: active) inner e.fault) (hbody : named.get? name = some body)
    (hinner : inner ∈ Regex.references f body) (hle : e.position ≤ (bytesOf body).length) :
    Traces f named active name (PatternFault.ofBody name e) := by
  have hrefers : RefersTo f named name inner := ⟨body, hbody, hinner⟩
  obtain ⟨position, fault⟩ := e
  cases fault with
  | unknownReference unknown =>
    obtain ⟨rfl, hunknown⟩ := h
    exact ⟨.refl, body, hbody, hle, .inr ⟨unknown, hinner, rfl, hunknown⟩⟩
  | recursiveReference other =>
    obtain ⟨hreach, hactive⟩ := h
    refine ⟨.head hrefers hreach, ?_⟩
    rcases hactive with hactive | hcycle
    · rcases List.mem_cons.1 hactive with rfl | hactive
      · -- the name that was made active one step ago is referred to again
        exact .inr (.head' hrefers hreach)
      · exact .inl hactive
    · exact .inr hcycle
  | inBody other position fault =>
    obtain ⟨hreach, hfault⟩ := h
    exact ⟨.head hrefers hreach, hfault⟩
  | _ => exact h.elim

/-- **A fault of an expansion is a fault of a name that is reached.** -/
theorem Expands.traces (h : Expands f named active name result) {fault : PatternFault}
    (herror : result = .error fault) : Traces f named active name fault := by
  induction h generalizing fault with
  | unknown hname =>
    cases herror
    exact ⟨rfl, hname⟩
  | recursive _ hactive =>
    cases herror
    exact ⟨.refl, .inl hactive⟩
  | @body active name body expand hbody hfresh hinner ih =>
    unfold Regex.expandBody at herror
    split at herror
    case h_2 => cases herror
    case h_1 e hassemble =>
    obtain rfl := Except.error.inj herror
    rcases cases_of_assemble_eq_error (g := ⟨[], OpenGroup.start⟩) (within_lexemes (bytesOf body))
      (List.forall_mem_nil _) hassemble with hown | ⟨hle, inner, hmem, hfault⟩
    · rw [ofBody_of_isOwn hown.2]
      exact ⟨.refl, body, hbody, hown.1, .inl hown.2⟩
    · exact (ih inner hmem hfault).ofBody hbody hmem hle

end Expansion

end NamedPatterns

/-! ### Patterns

A pattern is a body without a name: it is not part of any cycle, and its faults are its own. -/

namespace Regex

variable {f : Flags} {named : NamedPatterns} {pattern name : String}

/-- What a pattern is read to when its references are expanded without a bound. -/
def Parses (f : Flags) (named : NamedPatterns) (pattern : String)
    (result : Except PatternError Regex) : Prop :=
  ∃ expand, (∀ name ∈ references f pattern, named.Expands f [] name (expand name)) ∧
    result = readWith f expand pattern

/-- The pattern refers to the name, directly or through the bodies of other names. -/
def Reaches (f : Flags) (named : NamedPatterns) (pattern name : String) : Prop :=
  ∃ first ∈ references f pattern, Relation.ReflTransGen (named.RefersTo f) first name

/-- Reading with and without a bound give the same. -/
theorem parses_iff {result : Except PatternError Regex} :
    Parses f named pattern result ↔ parse f named pattern = result := by
  rw [parse_eq_readWith]
  constructor
  · rintro ⟨expand, hexpand, rfl⟩
    exact readWith_congr fun name hname =>
      NamedPatterns.expands_iff.1 (hexpand name hname)
  · rintro rfl
    exact ⟨_, fun name _ => NamedPatterns.expands_iff.2 rfl, rfl⟩

/-- The names that a pattern goes through are defined, and none of them refers back to itself. -/
theorem defined_and_acyclic_of_parse {r : Regex} (h : parse f named pattern = .ok r)
    (hreach : Reaches f named pattern name) :
    (∃ body, named.get? name = some body) ∧
      ¬ Relation.TransGen (named.RefersTo f) name name := by
  obtain ⟨first, hfirst, hlast⟩ := hreach
  rw [parse_eq_readWith] at h
  obtain ⟨node, hnode⟩ := exists_expand_of_readWith h first hfirst
  obtain ⟨hdefined, -, hacyclic⟩ :=
    (NamedPatterns.expands_iff.2 hnode).defined_and_acyclic rfl hlast
  exact ⟨hdefined, hacyclic⟩

/-- An error is reported in the pattern, and it is a fault of its own or the one of a name that it
refers to. -/
theorem traces_of_parse {e : PatternError} (h : parse f named pattern = .error e) :
    e.position ≤ (bytesOf pattern).length ∧
      (e.fault.IsOwn ∨ ∃ first ∈ references f pattern, named.Traces f [] first e.fault) := by
  rw [parse_eq_readWith] at h
  rcases cases_of_readWith_eq_error h with hown | ⟨hle, first, hfirst, hfault⟩
  · exact ⟨hown.1, .inl hown.2⟩
  · exact ⟨hle, .inr ⟨first, hfirst, (NamedPatterns.expands_iff.2 hfault).traces rfl⟩⟩

/-- **A pattern is read to the end, whatever its references are.**  The reading that expands
references without a bound has one result, and it is the one that is found.  When the pattern is
read, all the names that it reaches are defined and none of them is on a cycle of references.  When
it is refused, the fault is at an offset of the pattern, or of the body of a name that it reaches,
and a name that is reported to be recursive is reached and is on a cycle. -/
theorem parse_references (f : Flags) (named : NamedPatterns) (pattern : String) :
    (∀ result, Parses f named pattern result ↔ parse f named pattern = result) ∧
      (∀ r, parse f named pattern = .ok r → ∀ name, Reaches f named pattern name →
        (∃ body, named.get? name = some body) ∧
          ¬ Relation.TransGen (named.RefersTo f) name name) ∧
      (∀ e, parse f named pattern = .error e →
        e.position ≤ (bytesOf pattern).length ∧
          (∀ name, e.fault = .recursiveReference name →
            Reaches f named pattern name ∧ Relation.TransGen (named.RefersTo f) name name) ∧
          ∀ name position fault, e.fault = .inBody name position fault →
            Reaches f named pattern name ∧
              ∃ body, named.get? name = some body ∧ position ≤ (bytesOf body).length) := by
  refine ⟨fun _ => parses_iff, fun r h name => defined_and_acyclic_of_parse h, fun e h => ?_⟩
  obtain ⟨hle, hfault⟩ := traces_of_parse h
  refine ⟨hle, fun name hname => ?_, fun name position fault hname => ?_⟩
  · rw [hname] at hfault
    rcases hfault with hown | ⟨first, hfirst, hreach, hactive | hcycle⟩
    · exact hown.elim
    · cases hactive
    · exact ⟨⟨first, hfirst, hreach⟩, hcycle⟩
  · rw [hname] at hfault
    rcases hfault with hown | ⟨first, hfirst, hreach, body, hbody, hposition, -⟩
    · exact hown.elim
    · exact ⟨⟨first, hfirst, hreach⟩, body, hbody, hposition⟩

/-- Lists of items, where an item is a letter or a list in brackets. -/
def listsOfLists : NamedPatterns :=
  ((NameTable.empty.put "list" "\x7bitem\x7d(,\x7bitem\x7d)*").put "item" "[a-z]|\x7bgroup\x7d").put
    "group" "\\[\x7blist\x7d\\]"

/-- A list refers to items, an item to groups, and a group to a list again. -/
theorem parse_references_listsOfLists :
    parse Flags.none listsOfLists "x\x7blist\x7d+" = .error ⟨1, .recursiveReference "list"⟩ ∧
      Reaches Flags.none listsOfLists "x\x7blist\x7d+" "list" ∧
      Relation.TransGen (listsOfLists.RefersTo Flags.none) "list" "list" := by
  obtain ⟨-, -, hfaults⟩ := parse_references Flags.none listsOfLists "x\x7blist\x7d+"
  have hread : (match parse Flags.none listsOfLists "x\x7blist\x7d+" with
      | .ok _ => none
      | .error e => some e) = some ⟨1, .recursiveReference "list"⟩ := by
    decide +kernel
  cases hparse : parse Flags.none listsOfLists "x\x7blist\x7d+" with
  | ok r =>
    rw [hparse] at hread
    cases hread
  | error e =>
    rw [hparse] at hread
    obtain rfl := Option.some.inj hread
    exact ⟨rfl, (hfaults _ hparse).2.1 "list" rfl⟩

end Regex

end FrontEnd
