import FrontEnd.Proofs.Lalr.Canonical
import FrontEnd.Proofs.Parser.Tree

/-!
# Reductions in front of a terminal

Without conflicts, reductions in front of one terminal come to an end.  Where the terminal is
expected with an item after some symbols, the reductions follow the item, up to the place where the
terminal is shifted or the input is accepted.  But a reduction can be entered for a state because of
other symbols that lead there.  As long as nothing below such a place is touched, the reductions are
the same as above those symbols, so they end, or replace more symbols than one, or put a nonterminal
in the place of the latest symbol; and nonterminals replace each other only in one direction.

## Main Definitions

* `Grammar.Reduces` — a reduction in front of a terminal
* `Grammar.Settles` — reductions come to an end
* `Grammar.Opens` — a terminal is the first one to be read of a sequence of symbols
* `Grammar.Climbs` — a nonterminal replaces a symbol, in front of a terminal
* `Grammar.Hands` — an item hands the terminal behind it on to a nonterminal

## Main Statements

* `Grammar.Expected.settles` — reductions end where the terminal is expected
* `Grammar.wellFounded_climbs` — nonterminals replace each other in one direction
* `Grammar.settles` — reductions end everywhere
-/

namespace FrontEnd

namespace Grammar

variable {g : Grammar} {symbols front behind rest : List Symbol} {i : Item} {t : TokenId}

/-- A reduction in front of a terminal: the symbols end with the right-hand side of the production
that is entered for the state that they lead to. -/
def Reduces (g : Grammar) (t : TokenId) (symbols symbols' : List Symbol) : Prop :=
  ∃ p s production front, g.productions[p]? = some production ∧
    symbols = front ++ production.rhs ∧ symbols' = front ++ [.nonterminal production.lhs] ∧
      g.automaton.stateAfter? symbols = some s ∧ g.generate.tables.action s t = .reduce p

/-- Reductions in front of a terminal come to an end. -/
def Settles (g : Grammar) (t : TokenId) (symbols : List Symbol) : Prop :=
  Acc (fun after before => g.Reduces t before after) symbols

/-! ### Single reductions

A reduction replaces the latest symbols by the nonterminal of a production, when this is what the
tables say in front of the terminal.  Without conflicts there is one reduction at most. -/

/-- There is at most one reduction. -/
theorem Reduces.unique {symbols' symbols'' : List Symbol} (h : g.Reduces t symbols symbols')
    (h' : g.Reduces t symbols symbols'') : symbols' = symbols'' := by
  obtain ⟨p, s, production, front, hp, hsymbols, rfl, hs, haction⟩ := h
  obtain ⟨p', s', production', front', hp', hsymbols', rfl, hs', haction'⟩ := h'
  obtain rfl := Option.some.inj (hs.symm.trans hs')
  obtain rfl : p = p' := Action.reduce.inj (haction.symm.trans haction')
  obtain rfl := Option.some.inj (hp.symm.trans hp')
  rw [List.append_cancel_right (hsymbols.symm.trans hsymbols')]

/-- Reductions that end behind one more reduction end. -/
theorem Settles.of_reduces {symbols' : List Symbol} (h : g.Settles t symbols')
    (hstep : g.Reduces t symbols symbols') : g.Settles t symbols :=
  .intro _ fun _ hstep' => hstep.unique hstep' ▸ h

/-- Reductions that end behind some more reductions end. -/
theorem Settles.of_steps {symbols' : List Symbol} (h : g.Settles t symbols')
    (hsteps : Relation.ReflTransGen (g.Reduces t) symbols symbols') : g.Settles t symbols := by
  induction hsteps using Relation.ReflTransGen.head_induction_on with
  | refl => exact h
  | head hstep _ ih => exact ih.of_reduces hstep

/-- Nothing is reduced where something else is entered. -/
theorem settles_of_action {s : Nat} (hs : g.automaton.stateAfter? symbols = some s)
    (haction : ∀ p, g.generate.tables.action s t ≠ .reduce p) : g.Settles t symbols := by
  refine .intro _ ?_
  rintro _ ⟨p, s', -, -, -, -, -, hs', hreduce⟩
  obtain rfl := Option.some.inj (hs.symm.trans hs')
  exact absurd hreduce (haction p)

/-- Reductions that come to an end do not lead back. -/
theorem Settles.not_transGen (h : g.Settles t symbols) :
    ¬ Relation.TransGen (g.Reduces t) symbols symbols := by
  have hacc := h.transGen
  clear h
  induction hacc with
  | intro symbols _ ih =>
    exact fun hcycle => ih symbols (Relation.transGen_swap.2 hcycle) hcycle

/-! ### Reductions where the terminal is expected

An item that is expected with the terminal leads the reductions: its rest is empty or opens with the
terminal, and the productions that are reduced on the way are those which derive the empty rest. -/

/-- An item moves over what it goes on with. -/
theorem Expected.advance (h : g.Expected symbols i t)
    (hrest : (g.rhsOf i.production).drop i.dot = front ++ rest) :
    g.Expected (symbols ++ front) ⟨i.production, i.dot + front.length⟩ t := by
  induction front generalizing symbols i with
  | nil => simpa using h
  | cons x front ih =>
    have hnext := ih (h.goto (nextSymbol?_of_drop hrest)) (tail_of_drop hrest)
    rw [List.append_assoc] at hnext
    rw [List.length_cons, ← Nat.succ_add_eq_add_succ]
    exact hnext

/-- All of a production is to be read when it begins. -/
theorem drop_start {p : Nat} {production : Production}
    (hp : g.productions[p]? = some production) :
    (g.rhsOf (Item.start p).production).drop (Item.start p).dot = production.rhs :=
  rhsOf_of_getElem? hp

/-- An item at the start of a production moves over a part of the right-hand side. -/
theorem Expected.advance_start {p : Nat} {production : Production}
    (h : g.Expected symbols (Item.start p) t) (hp : g.productions[p]? = some production)
    (hrhs : production.rhs = front ++ rest) :
    g.Expected (symbols ++ front) ⟨p, front.length⟩ t := by
  have hadvance := h.advance ((drop_start hp).trans hrhs)
  rwa [show (Item.start p).dot + front.length = front.length from Nat.zero_add _] at hadvance

/-- The terminal is still expected behind the next symbol. -/
theorem Expected.goes_on {x : Symbol} (h : g.Expected symbols i t)
    (hrest : (g.rhsOf i.production).drop i.dot = x :: rest) :
    g.Expected (symbols ++ [x]) i.advance t := h.goto (nextSymbol?_of_drop hrest)

section ConflictFree

variable (hg : g.WellFormed) (hfree : g.ConflictFree)

include hg hfree

/-- The production of an item is reduced behind its right-hand side, in front of a terminal that is
expected there. -/
theorem Expected.reduces {p : Nat} {production : Production}
    (hp : g.productions[p]? = some production)
    (h : g.Expected (symbols ++ production.rhs) ⟨p, production.rhs.length⟩ t) :
    g.Reduces t (symbols ++ production.rhs) (symbols ++ [.nonterminal production.lhs]) := by
  have ha := g.isAutomaton_automaton
  obtain ⟨s, hs, -⟩ := (viable_iff ha).1 h.viable
  obtain ⟨hjustified, hconcerned⟩ := h.justified_reduce hg hp hs
  exact ⟨p, s, production, symbols, hp, rfl, rfl, hs, action_eq_of_justified hg hfree
    (ha.lt_size_of_stateAfter? hs) hconcerned hjustified rfl⟩

/-- Symbols that an item goes on with and that derive the empty string are read in front of a
terminal that is expected with the item. -/
theorem Expected.reads_parses {trees : List ParseTree} (hparses : g.Parses rest trees)
    (hempty : ParseTree.tokensAll trees = []) (h : g.Expected symbols i t)
    (hrest : (g.rhsOf i.production).drop i.dot = rest) :
    Relation.ReflTransGen (g.Reduces t) symbols (symbols ++ rest) := by
  induction hparses generalizing symbols i with
  | nil => rw [List.append_nil]
  | leaf token _ _ => cases hempty
  | @node p production rest children trees hp hchildren hparses ihchildren ih =>
    obtain ⟨hnone, hnoneBehind⟩ := List.append_eq_nil_iff.1 hempty
    have hderives := hparses.derives
    rw [hnoneBehind] at hderives
    -- the production begins in front of the same terminal, and its right-hand side is read first
    have hbegin : g.Expected symbols (Item.start p) t :=
      h.carry (mem_successors.2 ⟨p, production, hp, nextSymbol?_of_drop hrest, rfl⟩)
        (tail_of_drop hrest ▸ hderives)
    have hbehind := hbegin.advance_start hp (List.append_nil _).symm
    have hread := (ihchildren hnone hbegin (drop_start hp)).tail
      (hbehind.reduces hg hfree hp)
    have hgoes := ih hnoneBehind (h.goes_on hrest) (tail_of_drop hrest)
    rw [List.append_assoc] at hgoes
    exact hread.trans hgoes

/-- A rest that can be empty is read by reductions. -/
theorem Expected.reads (h : g.Expected symbols i t)
    (hrest : (g.rhsOf i.production).drop i.dot = rest) (hnull : g.Nullable rest) :
    Relation.ReflTransGen (g.Reduces t) symbols (symbols ++ rest) := by
  have hderives : g.Derives rest (sentenceOf []) := hnull
  obtain ⟨trees, hparses, hempty⟩ := exists_parses_of_derives hderives
  exact h.reads_parses hg hfree hparses hempty hrest

/-- **A production is reduced** behind a part of its right-hand side, when the rest derives the
empty string and the terminal is expected where the production begins. -/
theorem Expected.reduction {p : Nat} {production : Production}
    (hp : g.productions[p]? = some production) (hrhs : production.rhs = front ++ rest)
    (hnull : g.Nullable rest) (h : g.Expected symbols (Item.start p) t) :
    Relation.TransGen (g.Reduces t) (symbols ++ front)
      (symbols ++ [.nonterminal production.lhs]) := by
  have hrest : (g.rhsOf p).drop front.length = rest := by
    rw [rhsOf_of_getElem? hp, hrhs, List.drop_left]
  have hread := (h.advance_start hp hrhs).reads hg hfree hrest hnull
  rw [List.append_assoc, ← hrhs] at hread
  exact .tail' hread ((h.advance_start hp (List.append_nil _).symm).reduces hg hfree hp)

end ConflictFree

/-- A terminal is the first one to be read of a sequence: it is the first symbol, the symbols in
front of it derive the empty string, or the first symbol has a production that opens with it. -/
inductive Opens (g : Grammar) (t : TokenId) : List Symbol → Prop
  | terminal (rest : List Symbol) : Opens g t (.terminal t :: rest)
  | behind {x : Symbol} {rest : List Symbol} : g.Nullable [x] → Opens g t rest →
    Opens g t (x :: rest)
  | inside {p : Production} (rest : List Symbol) : p ∈ g.productions → Opens g t p.rhs →
    Opens g t (.nonterminal p.lhs :: rest)

/-- A terminal opens one of two parts, and the first part can be empty when it opens the second one.
-/
theorem Opens.of_append (h : g.Opens t (front ++ rest)) :
    g.Opens t front ∨ g.Nullable front ∧ g.Opens t rest := by
  induction front with
  | nil => exact .inr ⟨.refl, h⟩
  | cons x front ih =>
    cases h with
    | terminal => exact .inl (.terminal _)
    | inside _ hp hrhs => exact .inl (.inside _ hp hrhs)
    | behind hnull hrest =>
      rcases ih hrest with hfront | ⟨hnullFront, hbehind⟩
      · exact .inl (.behind hnull hfront)
      · exact .inr ⟨hnull.append hnullFront, hbehind⟩

/-- A terminal that opens what is produced opens what it is produced from. -/
theorem Opens.of_produces {symbols' : List Symbol} (hstep : g.Produces symbols symbols')
    (h : g.Opens t symbols') : g.Opens t symbols := by
  obtain @⟨p, before, after, hp⟩ := hstep
  induction before with
  | nil =>
    have happend : g.Opens t (p.rhs ++ after) := h
    rcases happend.of_append with hrhs | ⟨hnull, hafter⟩
    · exact .inside _ hp hrhs
    · exact .behind ((derives_of_mem hp).trans hnull) hafter
  | cons x before ih =>
    cases h with
    | terminal => exact .terminal _
    | inside _ hp hrhs => exact .inside _ hp hrhs
    | behind hnull hrest => exact .behind hnull (ih hrest)

/-- What can be read first is what a string that is derived begins with. -/
theorem begins_iff_opens : g.Begins symbols t ↔ g.Opens t symbols := by
  constructor
  · rintro ⟨rest, hderives⟩
    induction hderives using Relation.ReflTransGen.head_induction_on with
    | refl => exact .terminal rest
    | head hstep _ ih => exact ih.of_produces hstep
  · intro h
    induction h with
    | terminal rest => exact ⟨rest, .refl⟩
    | @behind x rest hnull _ ih =>
      obtain ⟨rest', hderives⟩ := ih
      exact ⟨rest', hnull.append hderives⟩
    | @inside p rest hp _ ih =>
      obtain ⟨rest', hderives⟩ := ih
      have hlhs : g.Derives [.nonterminal p.lhs] (.terminal t :: rest') :=
        (derives_of_mem hp).trans hderives
      exact ⟨rest' ++ rest, hlhs.append_right rest⟩

/-- A symbol that derives the empty string has a production that does. -/
theorem exists_of_nullable {x : Symbol} (h : g.Nullable [x]) :
    ∃ (p : Nat) (production : Production), g.productions[p]? = some production ∧
      x = .nonterminal production.lhs ∧ g.Nullable production.rhs := by
  have hderives : g.Derives [x] (sentenceOf []) := h
  obtain ⟨trees, hparses, hempty⟩ := exists_parses_of_derives hderives
  cases hparses with
  | leaf token _ => cases hempty
  | @node p production _ children _ hp hchildren _ =>
    have hnone : ParseTree.tokensAll children = [] := (List.append_eq_nil_iff.1 hempty).1
    have hrhs := hchildren.derives
    rw [hnone] at hrhs
    exact ⟨p, production, hp, rfl, hrhs⟩

section ConflictFree

variable (hg : g.WellFormed) (hfree : g.ConflictFree)

include hg hfree

/-- Reductions end where an item goes on with what a terminal opens: behind them the terminal is
shifted. -/
theorem Opens.settles (h : g.Opens t rest) (hi : g.Viable symbols i)
    (hrest : (g.rhsOf i.production).drop i.dot = rest) : g.Settles t symbols := by
  induction h generalizing symbols i with
  | terminal rest =>
    have ha := g.isAutomaton_automaton
    obtain ⟨s, hs, hclosure⟩ := (viable_iff ha).1 hi
    have hlt := ha.lt_size_of_stateAfter? hs
    obtain ⟨target, htarget⟩ := ha.exists_target s i _ hlt hclosure (nextSymbol?_of_drop hrest)
    refine settles_of_action hs fun p hreduce => ?_
    have hshift : g.generate.tables.action s t = .shift target :=
      action_eq_of_justified hg hfree hlt ((mem_concerned ha).2 (.inl ⟨target, htarget⟩)) htarget
        rfl
    rw [hshift] at hreduce
    cases hreduce
  | @behind x rest hnull hopens ih =>
    -- the nonterminal in front is read without a token, and the item moves over it
    obtain ⟨p, production, hp, rfl, hrhs⟩ := exists_of_nullable hnull
    have hnext := nextSymbol?_of_drop hrest
    have hbegin : g.Expected symbols (Item.start p) t :=
      .first hi (mem_successors.2 ⟨p, production, hp, hnext, rfl⟩)
        (begins_iff_opens.2 (tail_of_drop hrest ▸ hopens))
    have hread := hbegin.reduction hg hfree hp (List.nil_append _).symm hrhs
    rw [List.append_nil] at hread
    exact (ih (hi.goto hnext) (tail_of_drop hrest)).of_steps hread.to_reflTransGen
  | @inside p rest hp _ ih =>
    obtain ⟨q, hq⟩ := Array.mem_iff_getElem?.1 hp
    exact ih (hi.closure (mem_successors.2 ⟨q, p, hq, nextSymbol?_of_drop hrest, rfl⟩))
      (drop_start hq)

/-- Where the input is accepted, nothing is reduced. -/
theorem settles_start : g.Settles TokenId.endOfInput [.nonterminal g.start] := by
  have ha := g.isAutomaton_automaton
  have hstart : g.Viable [.nonterminal g.start] ⟨g.acceptProduction, 1⟩ :=
    Viable.start.goto (nextSymbol?_of_drop g.drop_accept)
  obtain ⟨s, hs, -⟩ := (viable_iff ha).1 hstart
  obtain ⟨hjustified, hconcerned⟩ := justified_accept hg hs
  refine settles_of_action hs fun p hreduce => ?_
  have haccept : g.generate.tables.action s TokenId.endOfInput = .accept :=
    action_eq_of_justified hg hfree (ha.lt_size_of_stateAfter? hs) hconcerned hjustified rfl
  rw [haccept] at hreduce
  cases hreduce

/-- Reductions end behind the right-hand side of an item that the terminal is expected with: what
goes on with its left-hand side was there before. -/
theorem Expected.settles_behind (h : g.Expected symbols i t) :
    g.Settles t (symbols ++ (g.rhsOf i.production).drop i.dot) := by
  induction h with
  | start =>
    rw [g.drop_accept]
    exact settles_start hg hfree
  | @first symbols i j t hi hj hbegins =>
    have hbegin : g.Expected symbols j t := .first hi hj hbegins
    obtain ⟨p, production, hp, hnext, rfl⟩ := mem_successors.1 hj
    have hread := hbegin.reduction hg hfree hp (List.append_nil _).symm .refl
    have hopens := begins_iff_opens.1 hbegins
    have hsettles := hopens.settles hg hfree (hi.goto hnext) rfl
    rw [drop_start hp]
    exact hsettles.of_steps hread.to_reflTransGen
  | @carry symbols i j t hi hj hnull ih =>
    have hbegin : g.Expected symbols j t := .carry hi hj hnull
    obtain ⟨p, production, hp, hnext, rfl⟩ := mem_successors.1 hj
    have hread := hbegin.reduction hg hfree hp (List.append_nil _).symm .refl
    have hbehind := (hi.goto hnext).reads hg hfree rfl hnull
    rw [drop_of_nextSymbol? hnext] at ih
    rw [List.append_assoc] at hbehind
    rw [drop_start hp]
    exact (ih.of_steps hbehind).of_steps hread.to_reflTransGen
  | @goto symbols i x t _ hnext ih =>
    rw [drop_of_nextSymbol? hnext] at ih
    rw [List.append_assoc]
    exact ih

/-- **Reductions end where the terminal is expected**: behind a part of what an item goes on with,
when the rest derives the empty string. -/
theorem Expected.settles (h : g.Expected symbols i t)
    (hrest : (g.rhsOf i.production).drop i.dot = front ++ rest) (hnull : g.Nullable rest) :
    g.Settles t (symbols ++ front) := by
  have hbehind := h.settles_behind hg hfree
  have hrest' : (g.rhsOf i.production).drop (i.dot + front.length) = rest := by
    rw [← List.drop_drop, hrest, List.drop_left]
  have hread := (h.advance hrest).reads hg hfree hrest' hnull
  rw [hrest, ← List.append_assoc] at hbehind
  exact hbehind.of_steps hread

end ConflictFree

/-! ### Reductions because of other symbols

A state does not tell which symbols have led to it.  Above two sequences that lead to the same
state, the same reductions are made as long as they stay above. -/

/-- A reduction is entered because its production begins after some symbols that the terminal is
expected with; with the right-hand side, these lead to the same state. -/
theorem Reduces.exists_expected (hg : g.WellFormed) {symbols' : List Symbol}
    (h : g.Reduces t symbols symbols') :
    ∃ p s production front base, g.productions[p]? = some production ∧
      symbols = front ++ production.rhs ∧ symbols' = front ++ [.nonterminal production.lhs] ∧
      g.automaton.stateAfter? symbols = some s ∧ g.generate.tables.action s t = .reduce p ∧
      g.automaton.stateAfter? (base ++ production.rhs) = some s ∧
      g.Expected base (Item.start p) t := by
  have ha := g.isAutomaton_automaton
  have hl := isLookaheads hg
  obtain ⟨p, s, production, front, hp, hsymbols, hsymbols', hs, haction⟩ := h
  have hlt := ha.lt_size_of_stateAfter? hs
  have hjustified := justified_action hg hlt t
  rw [haction] at hjustified
  obtain ⟨-, i, hfollows, hcomplete, rfl⟩ := hjustified
  obtain ⟨other, hother, hexpected⟩ := hl.exists_expected_of_follows hg ha hlt hfollows
  obtain ⟨base, rfl, hbase⟩ := hexpected.unwind
  have hclosure : i ∈ g.closure (g.automaton.kernel s) :=
    hl.isOver.map_fst s ▸ hfollows.mem_closure
  rw [dot_eq_of_isComplete (ha.mem_items_of_mem_closure hclosure) hcomplete, List.take_length,
    rhsOf_of_getElem? hp] at hother
  exact ⟨_, s, production, front, base, hp, hsymbols, hsymbols', hs, haction, hother, hbase⟩

/-- Symbols behind two such sequences lead to the same state. -/
theorem stateAfter?_append_congr {a : ItemAutomaton}
    (h : a.stateAfter? symbols = a.stateAfter? front) (rest : List Symbol) :
    a.stateAfter? (symbols ++ rest) = a.stateAfter? (front ++ rest) := by
  unfold ItemAutomaton.stateAfter? at h ⊢
  rw [List.foldlM_append, List.foldlM_append, h]

/-- **As long as nothing below them is touched, reductions are the same** above all symbols that
lead to one state.  So they end above some symbols if they end above others, and if they end
wherever a production replaces the latest ones of the symbols. -/
theorem Settles.above (hg : g.WellFormed)
    (hstate : g.automaton.stateAfter? symbols = g.automaton.stateAfter? front)
    (hbelow : ∀ p production below popped rest base, g.productions[p]? = some production →
      symbols = below ++ popped → popped ≠ [] → production.rhs = popped ++ rest →
        g.Nullable rest → g.Expected base (Item.start p) t →
          g.Settles t (below ++ [.nonterminal production.lhs]))
    (hnull : g.Nullable rest) (h : g.Settles t (front ++ rest)) :
    g.Settles t (symbols ++ rest) := by
  generalize hall : front ++ rest = all at h
  induction h generalizing rest with
  | intro all _ ih =>
    subst hall
    refine .intro _ fun after hstep => ?_
    obtain ⟨p, s, production, before, base, hp, hsplit, rfl, hs, haction, -, hbase⟩ :=
      hstep.exists_expected hg
    -- what is reduced lies above the symbols, or takes some of them
    have habove : ∀ above, before = symbols ++ above → rest = above ++ production.rhs →
        g.Settles t (before ++ [.nonterminal production.lhs]) := by
      rintro above rfl rfl
      have hnullAbove : g.Nullable (above ++ [.nonterminal production.lhs]) :=
        ((derives_of_mem (Array.mem_of_getElem? hp)).append_left above).trans hnull
      rw [List.append_assoc]
      refine ih _ ⟨p, s, production, front ++ above, hp, ?_, ?_, ?_, haction⟩ hnullAbove rfl
      · rw [List.append_assoc]
      · rw [List.append_assoc]
      · rw [← stateAfter?_append_congr hstate]
        exact hs
    rcases List.append_eq_append_iff.1 hsplit with ⟨above, hbefore, hrest⟩ | ⟨popped, hpopped, hrhs⟩
    · exact habove above hbefore hrest
    · cases popped with
      | nil => exact habove [] (by simpa using hpopped.symm) (by simpa using hrhs.symm)
      | cons x popped =>
        exact hbelow p production before (x :: popped) rest base hp hpopped (List.cons_ne_nil _ _)
          hrhs hnull hbase

/-! ### Nonterminals that replace each other

What can go on for ever is only that one nonterminal takes the place of another one, again and
again.  Such a circle would hand the terminal from an item to itself, above a place where the
terminal is expected; but there the reductions end. -/

/-- A nonterminal replaces a symbol in front of a terminal: it has a production that begins with the
symbol, where the rest derives the empty string. -/
def Climbs (g : Grammar) (t : TokenId) (x : Symbol) (v : Nat) : Prop :=
  ∃ p production base rest, g.productions[p]? = some production ∧ production.lhs = v ∧
    production.rhs = x :: rest ∧ g.Nullable rest ∧ g.Expected base (Item.start p) t

/-- After some symbols, an item that a terminal is expected with goes on with a nonterminal, and the
rest derives the empty string. -/
def Hands (g : Grammar) (t : TokenId) (symbols : List Symbol) (v : Nat) : Prop :=
  ∃ i rest, g.Expected symbols i t ∧
    (g.rhsOf i.production).drop i.dot = .nonterminal v :: rest ∧ g.Nullable rest

/-- A nonterminal that replaces another one is handed the terminal by an item. -/
theorem Climbs.exists_hands {v w : Nat} (h : g.Climbs t (.nonterminal v) w) :
    ∃ base, g.Hands t base v := by
  obtain ⟨p, production, base, rest, hp, -, hrhs, hnull, hbase⟩ := h
  exact ⟨base, Item.start p, rest, hbase, (drop_start hp).trans hrhs, hnull⟩

section ConflictFree

variable (hg : g.WellFormed) (hfree : g.ConflictFree)

include hg hfree

/-- Reductions end above the place where an item hands on the terminal. -/
theorem Hands.settles {v : Nat} (h : g.Hands t symbols v) :
    g.Settles t (symbols ++ [.nonterminal v]) := by
  obtain ⟨i, rest, hi, hrest, hnull⟩ := h
  have happend : (g.rhsOf i.production).drop i.dot = [.nonterminal v] ++ rest := hrest
  exact hi.settles hg hfree happend hnull

/-- The terminal is handed on to what a nonterminal replaces, and the nonterminal replaces it. -/
theorem Hands.climb {v w : Nat} (h : g.Hands t symbols w)
    (hclimbs : g.Climbs t (.nonterminal v) w) :
    g.Hands t symbols v ∧ Relation.TransGen (g.Reduces t) (symbols ++ [.nonterminal v])
      (symbols ++ [.nonterminal w]) := by
  obtain ⟨i, rest, hi, hrest, hnull⟩ := h
  obtain ⟨p, production, -, behind, hp, rfl, hrhs, hnullBehind, -⟩ := hclimbs
  have hbegin : g.Expected symbols (Item.start p) t :=
    hi.carry (mem_successors.2 ⟨p, production, hp, nextSymbol?_of_drop hrest, rfl⟩)
      (tail_of_drop hrest ▸ hnull)
  have happend : production.rhs = [.nonterminal v] ++ behind := hrhs
  exact ⟨⟨Item.start p, behind, hbegin, (drop_start hp).trans hrhs, hnullBehind⟩,
    hbegin.reduction hg hfree hp happend hnullBehind⟩

/-- Nonterminals that replace each other do so above the same symbols. -/
theorem Hands.transGen {v w : Nat} (h : g.Hands t symbols w)
    (hclimbs : Relation.TransGen (fun v w => g.Climbs t (.nonterminal v) w) v w) :
    g.Hands t symbols v ∧ Relation.TransGen (g.Reduces t) (symbols ++ [.nonterminal v])
      (symbols ++ [.nonterminal w]) := by
  induction hclimbs using Relation.TransGen.head_induction_on with
  | single hclimb => exact h.climb hg hfree hclimb
  | head hclimb _ ih =>
    obtain ⟨hhands, hsteps⟩ := ih
    obtain ⟨hhands', hsteps'⟩ := hhands.climb hg hfree hclimb
    exact ⟨hhands', hsteps'.trans hsteps⟩

/-- No nonterminal is replaced by others and returns: where it is handed the terminal, all of them
are, and reductions would lead around for ever. -/
theorem not_transGen_climbs (v : Nat) :
    ¬ Relation.TransGen (fun v w => g.Climbs t (.nonterminal v) w) v v := by
  intro hcycle
  obtain ⟨w, hclimb, -⟩ := Relation.TransGen.head'_iff.1 hcycle
  obtain ⟨base, hhands⟩ := hclimb.exists_hands
  exact (hhands.settles hg hfree).not_transGen (hhands.transGen hg hfree hcycle).2

/-- **Nonterminals replace each other in one direction.** -/
theorem wellFounded_climbs (t : TokenId) :
    WellFounded fun w v => g.Climbs t (.nonterminal v) w := by
  -- there are only so many nonterminals, and none is above itself
  let above (w v : Fin g.numNonterminals) : Prop :=
    Relation.TransGen (fun v w => g.Climbs t (.nonterminal v) w) v w
  have htrans : IsTrans _ above := ⟨fun _ _ _ h h' => h'.trans h⟩
  have hirrefl : Std.Irrefl above := ⟨fun v => not_transGen_climbs hg hfree v⟩
  have hfinite : WellFounded above := Finite.wellFounded_of_trans_of_irrefl above
  have hlt : ∀ v w, g.Climbs t (.nonterminal v) w → w < g.numNonterminals := by
    rintro v _ ⟨p, production, -, -, hp, rfl, -⟩
    exact hg.lhs_lt _ (Array.mem_of_getElem? hp)
  have hacc : ∀ v : Fin g.numNonterminals,
      Acc (fun w v => g.Climbs t (.nonterminal v) w) v.val := by
    intro v
    induction v using hfinite.induction with
    | _ v ih => exact .intro _ fun w hclimb => ih ⟨w, hlt v w hclimb⟩ (.single hclimb)
  exact ⟨fun v => .intro _ fun w hclimb => hacc ⟨w, hlt v w hclimb⟩⟩

/-- Reductions end when they end for all shorter sequences, and wherever the latest symbol is
replaced. -/
theorem settles_of_shorter
    (hshorter : ∀ symbols' : List Symbol, symbols'.length < symbols.length →
      g.Settles t symbols')
    (hclimbs : ∀ below x v, symbols = below ++ [x] → g.Climbs t x v →
      g.Settles t (below ++ [.nonterminal v])) : g.Settles t symbols := by
  by_cases hstep : ∃ after, g.Reduces t symbols after
  · obtain ⟨after, hstep⟩ := hstep
    obtain ⟨p, s, production, -, base, hp, -, -, hs, -, hbase, hexpected⟩ :=
      hstep.exists_expected hg
    have hsettles : g.Settles t (base ++ production.rhs) := by
      have hbehind := hexpected.settles_behind hg hfree
      rwa [drop_start hp] at hbehind
    have hall : g.Settles t (symbols ++ []) := by
      refine Settles.above hg (hs.trans hbase.symm) ?_ .refl (by rwa [List.append_nil])
      intro q production' below popped rest base' hq hsymbols hne hrhs hnull hexpected'
      match popped, hne with
      | [x], _ =>
        exact hclimbs below x _ hsymbols ⟨q, production', base', rest, hq, rfl, hrhs, hnull,
          hexpected'⟩
      | x :: y :: popped, _ =>
        apply hshorter
        rw [hsymbols]
        simp
    rwa [List.append_nil] at hall
  · exact .intro _ fun after h => absurd ⟨after, h⟩ hstep

/-- **Reductions in front of a terminal come to an end**, whatever has been read. -/
theorem settles (t : TokenId) (symbols : List Symbol) : g.Settles t symbols := by
  induction hlength : symbols.length using Nat.strongRecOn generalizing symbols with
  | ind n ih =>
    subst hlength
    -- of the sequences of this length, first those that end with a nonterminal
    have hlast : ∀ (v : Nat) (below : List Symbol), below.length + 1 = symbols.length →
        g.Settles t (below ++ [.nonterminal v]) := by
      intro v
      induction v using (wellFounded_climbs hg hfree t).induction with
      | _ v ihv =>
        intro below hlength
        refine settles_of_shorter hg hfree (fun symbols' hlt => ?_) fun below' x w heq hclimb => ?_
        · exact ih _ (by simpa [hlength] using hlt) symbols' rfl
        · obtain ⟨rfl, hx⟩ := List.append_inj' heq rfl
          obtain rfl := List.singleton_inj.1 hx
          exact ihv w hclimb below hlength
    refine settles_of_shorter hg hfree (fun symbols' hlt => ih _ hlt symbols' rfl) ?_
    rintro below x v rfl -
    exact hlast v below (by simp)

end ConflictFree

end Grammar

end FrontEnd
