import FrontEnd.Proofs.Grammar.Derivation

/-!
# Rightmost derivations

A rightmost derivation replaces the last nonterminal in each step.  It is given with the numbers of
the productions that it uses.

## Main Definitions

* `Grammar.RightmostStep`, `Grammar.Rightmost` — one step, and a derivation with its productions

## Main Statements

* `Grammar.Rightmost.derives` — a rightmost derivation is a derivation
* `Grammar.Rightmost.append_left`, `Grammar.Rightmost.append_terminals` — symbols in front, and
  terminals behind

## Design Notes

The terminals behind the nonterminal that is replaced are given as a list of terminals, and not by a
condition on symbols.  In a step there is then nothing to show about them, and a derivation can be
continued in front of any terminals.
-/

namespace FrontEnd

namespace Grammar

/-- The sequence of some terminals. -/
def sentence (terminals : List TokenId) : List Symbol := terminals.map Symbol.terminal

/-- The last nonterminal is replaced by the right-hand side of a production. -/
inductive RightmostStep (g : Grammar) (p : Nat) : List Symbol → List Symbol → Prop
  | replace {production : Production} (u : List Symbol) (w : List TokenId) :
    g.productions[p]? = some production →
      RightmostStep g p (u ++ .nonterminal production.lhs :: sentence w)
        (u ++ (production.rhs ++ sentence w))

/-- A rightmost derivation with the numbers of its productions. -/
inductive Rightmost (g : Grammar) : List Symbol → List Nat → List Symbol → Prop
  | refl (seq : List Symbol) : Rightmost g seq [] seq
  | step {p : Nat} {ps : List Nat} {seq seq' seq'' : List Symbol} :
    g.RightmostStep p seq seq' → Rightmost g seq' ps seq'' → Rightmost g seq (p :: ps) seq''

variable {g : Grammar} {p : Nat} {ps qs : List Nat} {seq seq' seq'' : List Symbol}

theorem sentence_append (v w : List TokenId) : sentence (v ++ w) = sentence v ++ sentence w :=
  List.map_append

/-- A rightmost step is a step. -/
theorem RightmostStep.produces (h : g.RightmostStep p seq seq') : g.Produces seq seq' := by
  obtain ⟨u, w, hp⟩ := h
  exact .replace u (sentence w) (Array.mem_of_getElem? hp)

/-- A rightmost derivation is a derivation. -/
theorem Rightmost.derives (h : g.Rightmost seq ps seq') : g.Derives seq seq' := by
  induction h with
  | refl => exact .refl
  | step hstep _ ih => exact .head hstep.produces ih

theorem Rightmost.trans (h : g.Rightmost seq ps seq') (h' : g.Rightmost seq' qs seq'') :
    g.Rightmost seq (ps ++ qs) seq'' := by
  induction h with
  | refl => exact h'
  | step hstep _ ih => exact .step hstep (ih h')

/-- A rightmost derivation does not depend on what stands in front. -/
theorem Rightmost.append_left (h : g.Rightmost seq ps seq') (v : List Symbol) :
    g.Rightmost (v ++ seq) ps (v ++ seq') := by
  induction h with
  | refl => exact .refl _
  | step hstep _ ih =>
    refine .step ?_ ih
    obtain ⟨u, w, hp⟩ := hstep
    simpa only [List.append_assoc] using RightmostStep.replace (v ++ u) w hp

/-- A rightmost derivation does not depend on terminals that stand behind. -/
theorem Rightmost.append_terminals (h : g.Rightmost seq ps seq') (v : List TokenId) :
    g.Rightmost (seq ++ sentence v) ps (seq' ++ sentence v) := by
  induction h with
  | refl => exact .refl _
  | step hstep _ ih =>
    refine .step ?_ ih
    obtain ⟨u, w, hp⟩ := hstep
    simpa only [List.append_assoc, List.cons_append, sentence_append] using
      RightmostStep.replace u (w ++ v) hp

/-- A production is a rightmost derivation of one step. -/
theorem rightmost_production {production : Production} (h : g.productions[p]? = some production) :
    g.Rightmost [.nonterminal production.lhs] [p] production.rhs := by
  have hstep : g.RightmostStep p [.nonterminal production.lhs] (production.rhs ++ []) :=
    .replace [] [] h
  rw [List.append_nil] at hstep
  exact .step hstep (.refl _)

end Grammar

end FrontEnd
