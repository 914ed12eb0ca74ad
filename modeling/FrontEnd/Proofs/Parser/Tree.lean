import FrontEnd.Parser.Run
import FrontEnd.Proofs.Grammar.Rightmost

/-!
# Parse trees

What a parser makes of its input: a tree with the tokens at its leaves and productions at its inner
nodes.  A run of the parser visits the leaves from left to right, and each node behind its children.

## Main Definitions

* `ParseTree` — trees of tokens and productions
* `ParseTree.tokens`, `ParseTree.eval`, `ParseTree.events` — the leaves, the value, and what a run
  reports
* `Grammar.Parses` — the trees are parse trees of the symbols

## Main Statements

* `Grammar.exists_parses_of_derives` — what is derived has parse trees
* `Grammar.Parses.rightmost` — the productions of the nodes, read backwards, are a rightmost
  derivation of the leaves

## Design Notes

Trees and lists of trees have their leaves, values and events by mutual recursion, and those of a
list are those of its trees one after the other.  `Grammar.Parses` is one relation on lists, in
which a tree is a list of one: a proof is an induction over it, with a case for each kind of first
tree, and never one over trees.
-/

namespace FrontEnd

/-- A tree with tokens at its leaves, and productions with their left-hand sides at its nodes. -/
inductive ParseTree where
  | leaf (token : Token)
  | node (production lhs : Nat) (children : List ParseTree)

namespace ParseTree

mutual

/-- The leaves of a tree. -/
def tokens : ParseTree → List Token
  | leaf token => [token]
  | node _ _ children => tokensAll children

/-- The leaves of some trees. -/
def tokensAll : List ParseTree → List Token
  | [] => []
  | tree :: rest => tree.tokens ++ tokensAll rest

end

mutual

/-- The value of a tree: the value of a node is made of those of its children. -/
def eval (s : Semantics α) : ParseTree → α
  | leaf token => s.shift token
  | node production lhs children => s.reduce production lhs (evalAll s children)

/-- The values of some trees. -/
def evalAll (s : Semantics α) : List ParseTree → List α
  | [] => []
  | tree :: rest => tree.eval s :: evalAll s rest

end

mutual

/-- What a run reports of a tree: each node behind its children. -/
def events : ParseTree → List Event
  | leaf token => [.shift token]
  | node production lhs children => eventsAll children ++ [.reduce production lhs children.length]

/-- What a run reports of some trees. -/
def eventsAll : List ParseTree → List Event
  | [] => []
  | tree :: rest => tree.events ++ eventsAll rest

end

variable {α : Type}

theorem tokensAll_append (trees rest : List ParseTree) :
    tokensAll (trees ++ rest) = tokensAll trees ++ tokensAll rest := by
  induction trees with
  | nil => rfl
  | cons tree trees ih =>
    rw [List.cons_append, tokensAll, tokensAll, ih, List.append_assoc]

theorem evalAll_append (s : Semantics α) (trees rest : List ParseTree) :
    evalAll s (trees ++ rest) = evalAll s trees ++ evalAll s rest := by
  induction trees with
  | nil => rfl
  | cons tree trees ih => rw [List.cons_append, evalAll, evalAll, ih, List.cons_append]

theorem eventsAll_append (trees rest : List ParseTree) :
    eventsAll (trees ++ rest) = eventsAll trees ++ eventsAll rest := by
  induction trees with
  | nil => rfl
  | cons tree trees ih =>
    rw [List.cons_append, eventsAll, eventsAll, ih, List.append_assoc]

@[simp] theorem length_evalAll (s : Semantics α) (trees : List ParseTree) :
    (evalAll s trees).length = trees.length := by
  induction trees with
  | nil => rfl
  | cons tree trees ih => rw [evalAll, List.length_cons, ih, List.length_cons]

end ParseTree

namespace Event

/-- The token that has been shifted. -/
def shifted? : Event → Option Token
  | .shift token => some token
  | _ => none

/-- The production that has been reduced. -/
def reduced? : Event → Option Nat
  | .reduce production _ _ => some production
  | _ => none

end Event

namespace Grammar

open ParseTree

/-- The trees are parse trees of the symbols: the leaf of a token for its terminal, and a node with
parse trees of the right-hand side for the left-hand side of a production. -/
inductive Parses (g : Grammar) : List Symbol → List ParseTree → Prop
  | nil : Parses g [] []
  | leaf {symbols : List Symbol} {trees : List ParseTree} (token : Token) :
    Parses g symbols trees → Parses g (.terminal token.id :: symbols) (.leaf token :: trees)
  | node {p : Nat} {production : Production} {symbols : List Symbol}
    {children trees : List ParseTree} :
    g.productions[p]? = some production → Parses g production.rhs children →
      Parses g symbols trees →
        Parses g (.nonterminal production.lhs :: symbols) (.node p production.lhs children :: trees)

/-- The sequence of the terminals of some tokens. -/
def sentenceOf (tokens : List Token) : List Symbol := sentence (tokens.map Token.id)

variable {g : Grammar} {symbols rest : List Symbol} {trees trees' : List ParseTree}

theorem sentenceOf_append (tokens tokens' : List Token) :
    sentenceOf (tokens ++ tokens') = sentenceOf tokens ++ sentenceOf tokens' := by
  rw [sentenceOf, List.map_append, sentence_append]
  rfl

namespace Parses

theorem length_eq (h : g.Parses symbols trees) : trees.length = symbols.length := by
  induction h with
  | nil => rfl
  | leaf _ _ ih => rw [List.length_cons, ih, List.length_cons]
  | node _ _ _ _ ih => rw [List.length_cons, ih, List.length_cons]

theorem append (h : g.Parses symbols trees) (h' : g.Parses rest trees') :
    g.Parses (symbols ++ rest) (trees ++ trees') := by
  induction h with
  | nil => exact h'
  | leaf token _ ih => exact .leaf token ih
  | node hp hchildren _ _ ih => exact .node hp hchildren ih

/-- Parse trees of a sequence are those of its parts. -/
theorem split {trees : List ParseTree} (h : g.Parses (symbols ++ rest) trees) :
    ∃ front back, trees = front ++ back ∧ g.Parses symbols front ∧ g.Parses rest back := by
  induction symbols generalizing trees with
  | nil => exact ⟨[], trees, rfl, .nil, h⟩
  | cons x symbols ih =>
    cases h with
    | leaf token h =>
      obtain ⟨front, back, rfl, hfront, hback⟩ := ih h
      exact ⟨_, back, rfl, .leaf token hfront, hback⟩
    | node hp hchildren h =>
      obtain ⟨front, back, rfl, hfront, hback⟩ := ih h
      exact ⟨_, back, rfl, .node hp hchildren hfront, hback⟩

/-- What is shifted are the leaves. -/
theorem shifted (h : g.Parses symbols trees) :
    (eventsAll trees).filterMap Event.shifted? = tokensAll trees := by
  induction h with
  | nil => rfl
  | leaf token _ ih =>
    rw [eventsAll, tokensAll, List.filterMap_append, ih]
    rfl
  | @node p production symbols children trees _ _ _ hchildren htrees =>
    rw [eventsAll, tokensAll, List.filterMap_append, htrees, events, tokens,
      List.filterMap_append, hchildren]
    exact congrArg (· ++ _) (List.append_nil _)

/-- **The reductions, read backwards, are a rightmost derivation** of the leaves. -/
theorem rightmost (h : g.Parses symbols trees) :
    g.Rightmost symbols ((eventsAll trees).filterMap Event.reduced?).reverse
      (sentenceOf (tokensAll trees)) := by
  induction h with
  | nil => exact .refl []
  | leaf token _ ih =>
    have hleft := ih.append_left [.terminal token.id]
    rw [eventsAll, tokensAll, List.filterMap_append]
    exact hleft
  | @node p production symbols children trees hp _ _ hchildren htrees =>
    -- the symbols behind the first one are derived before it, and their terminals stay behind it
    have hbehind := htrees.append_left [.nonterminal production.lhs]
    have hfirst := ((rightmost_production hp).trans hchildren).append_terminals
      ((tokensAll trees).map Token.id)
    have hall := hbehind.trans hfirst
    rw [eventsAll, tokensAll, sentenceOf_append, List.filterMap_append, List.reverse_append, events,
      tokens, List.filterMap_append, List.reverse_append]
    exact hall

/-- The symbols derive the sentence at the leaves of their parse trees. -/
theorem derives (h : g.Parses symbols trees) :
    g.Derives symbols (sentenceOf (tokensAll trees)) := h.rightmost.derives

end Parses

/-- Tokens are parse trees of their terminals. -/
theorem parses_sentenceOf (g : Grammar) (tokens : List Token) :
    g.Parses (sentenceOf tokens) (tokens.map .leaf) := by
  induction tokens with
  | nil => exact .nil
  | cons token tokens ih => exact .leaf token ih

theorem tokensAll_map_leaf (tokens : List Token) : tokensAll (tokens.map .leaf) = tokens := by
  induction tokens with
  | nil => rfl
  | cons token rest ih =>
    rw [List.map_cons, tokensAll, ih]
    rfl

/-- Parse trees of what is produced give parse trees of what produces it. -/
theorem Parses.of_produces {seq seq' : List Symbol} (hstep : g.Produces seq seq')
    (h : g.Parses seq' trees) :
    ∃ trees', g.Parses seq trees' ∧ tokensAll trees' = tokensAll trees := by
  obtain @⟨production, u, v, hp⟩ := hstep
  obtain ⟨p, hp⟩ := Array.mem_iff_getElem?.1 hp
  obtain ⟨front, behind, rfl, hfront, hbehind⟩ := h.split
  obtain ⟨children, back, rfl, hchildren, hback⟩ := hbehind.split
  refine ⟨front ++ .node p production.lhs children :: back,
    hfront.append (.node hp hchildren hback), ?_⟩
  rw [tokensAll_append, tokensAll, tokens, tokensAll_append, tokensAll_append]

/-- **What is derived has parse trees.** -/
theorem exists_parses_of_derives {tokens : List Token}
    (h : g.Derives symbols (sentenceOf tokens)) :
    ∃ trees, g.Parses symbols trees ∧ tokensAll trees = tokens := by
  induction h using Relation.ReflTransGen.head_induction_on with
  | refl => exact ⟨tokens.map .leaf, g.parses_sentenceOf tokens, tokensAll_map_leaf tokens⟩
  | head hstep _ ih =>
    obtain ⟨trees, htrees, htokens⟩ := ih
    obtain ⟨trees', htrees', heq⟩ := htrees.of_produces hstep
    exact ⟨trees', htrees', heq.trans htokens⟩

end Grammar

end FrontEnd
