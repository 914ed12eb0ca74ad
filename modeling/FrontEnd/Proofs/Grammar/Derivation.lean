import FrontEnd.Grammar.Basic
import Mathlib.Logic.Relation

/-!
# Derivations

A step of a derivation replaces a nonterminal by the right-hand side of one of its productions.

## Main Definitions

* `Grammar.Produces`, `Grammar.Derives` — one step, and any number of steps
* `Grammar.Nullable`, `Grammar.Begins` — the empty string is derived, and a string that begins with
  a terminal

## Design Notes

Derivations are not restricted to leftmost or rightmost ones.  What can be derived does not depend
on it, and the steps of two parts of a sequence can be taken in any order, which makes the lemmas
about appended sequences short.  Where the order matters, there is a relation of its own for it.
-/

namespace FrontEnd

namespace Grammar

/-- A nonterminal is replaced by the right-hand side of a production. -/
inductive Produces (g : Grammar) : List Symbol → List Symbol → Prop
  | replace {p : Production} (u v : List Symbol) :
    p ∈ g.productions → Produces g (u ++ .nonterminal p.lhs :: v) (u ++ (p.rhs ++ v))

/-- A sequence of symbols is derived in any number of steps. -/
def Derives (g : Grammar) : List Symbol → List Symbol → Prop := Relation.ReflTransGen g.Produces

/-- The empty string is derived. -/
def Nullable (g : Grammar) (seq : List Symbol) : Prop := g.Derives seq []

/-- A string that begins with the terminal is derived. -/
def Begins (g : Grammar) (seq : List Symbol) (t : TokenId) : Prop :=
  ∃ rest, g.Derives seq (.terminal t :: rest)

variable {g : Grammar}

/-- A step does not depend on what stands in front. -/
theorem Produces.append_left {seq seq' : List Symbol} (h : g.Produces seq seq')
    (w : List Symbol) : g.Produces (w ++ seq) (w ++ seq') := by
  obtain ⟨u, v, hp⟩ := h
  simpa only [List.append_assoc] using Produces.replace (w ++ u) v hp

/-- A step does not depend on what stands behind. -/
theorem Produces.append_right {seq seq' : List Symbol} (h : g.Produces seq seq')
    (w : List Symbol) : g.Produces (seq ++ w) (seq' ++ w) := by
  obtain ⟨u, v, hp⟩ := h
  simpa only [List.append_assoc, List.cons_append] using Produces.replace u (v ++ w) hp

/-- A derivation does not depend on what stands in front. -/
theorem Derives.append_left {seq seq' : List Symbol} (h : g.Derives seq seq') (w : List Symbol) :
    g.Derives (w ++ seq) (w ++ seq') := by
  induction h with
  | refl => exact .refl
  | tail _ hstep ih => exact ih.tail (hstep.append_left w)

/-- A derivation does not depend on what stands behind. -/
theorem Derives.append_right {seq seq' : List Symbol} (h : g.Derives seq seq') (w : List Symbol) :
    g.Derives (seq ++ w) (seq' ++ w) := by
  induction h with
  | refl => exact .refl
  | tail _ hstep ih => exact ih.tail (hstep.append_right w)

theorem Derives.append {seq seq' rest rest' : List Symbol} (h : g.Derives seq seq')
    (h' : g.Derives rest rest') : g.Derives (seq ++ rest) (seq' ++ rest') :=
  (h.append_right rest).trans (h'.append_left seq')

/-- A nonterminal derives the right-hand sides of its productions. -/
theorem derives_of_mem {p : Production} (hp : p ∈ g.productions) :
    g.Derives [.nonterminal p.lhs] p.rhs := by
  have hstep : g.Produces [.nonterminal p.lhs] (p.rhs ++ []) := Produces.replace [] [] hp
  rw [List.append_nil] at hstep
  exact .single hstep

end Grammar

end FrontEnd
