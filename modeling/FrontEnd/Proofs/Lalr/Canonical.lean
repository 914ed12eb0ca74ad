import FrontEnd.Proofs.Grammar.Useful
import FrontEnd.Proofs.Lalr.Tables

/-!
# Canonical items

The canonical construction gives each item one terminal that may follow, and an item begins where
another one goes on only with what can be seen behind it.  The lookaheads put together what the
canonical construction has for all sequences of symbols that lead to a state.  They can have more
where a nonterminal derives no sentence: nothing can be seen behind it, so the canonical
construction stops there, but the automaton goes on, and so do its lookaheads.

## Main Definitions

* `ItemAutomaton.stateAfter?` — the state that a sequence of symbols leads to
* `Grammar.Viable` — an item after a sequence of symbols
* `Grammar.Valid` — the same with a terminal, by the canonical construction
* `Grammar.Expected` — the same with a terminal, for each viable item that goes on

## Main Statements

* `Grammar.viable_iff` — the viable items are those of the automaton
* `Grammar.follows_iff_expected` — what follows an item of a state is expected after the sequences
  that lead there
* `Grammar.valid_iff_expected` — where all nonterminals are productive, what is expected is valid
* `GrammarDefinition.mem_lookaheads_iff` — the lookaheads of each kernel item
-/

namespace FrontEnd

/-! ### Sequences of symbols

What stands behind the dot of an item begins with a terminal, or is empty and lets the terminal
behind the item through.  The tables of first terminals tell both. -/

/-- The state that a sequence of symbols leads to from the first state. -/
def ItemAutomaton.stateAfter? (a : ItemAutomaton) (symbols : List Symbol) : Option Nat :=
  symbols.foldlM a.target? 0

namespace Grammar

/-- An item is viable after a sequence of symbols: it is the first one, it begins where a viable
item goes on, or a viable item has moved over the last symbol. -/
inductive Viable (g : Grammar) : List Symbol → Item → Prop
  | start : Viable g [] (Item.start g.acceptProduction)
  | closure {symbols : List Symbol} {i j : Item} :
    Viable g symbols i → j ∈ g.successors i → Viable g symbols j
  | goto {symbols : List Symbol} {i : Item} {x : Symbol} :
    Viable g symbols i → g.nextSymbol? i = some x → Viable g (symbols ++ [x]) i.advance

/-- An item is valid with a terminal after a sequence of symbols.  What begins where a valid item
goes on is valid with each terminal that the rest of the item and its terminal begin with. -/
inductive Valid (g : Grammar) : List Symbol → Item → TokenId → Prop
  | start : Valid g [] (Item.start g.acceptProduction) TokenId.endOfInput
  | closure {symbols : List Symbol} {i j : Item} {t u : TokenId} :
    Valid g symbols i t → j ∈ g.successors i → g.Begins (g.tail i ++ [.terminal t]) u →
      Valid g symbols j u
  | goto {symbols : List Symbol} {i : Item} {x : Symbol} {t : TokenId} :
    Valid g symbols i t → g.nextSymbol? i = some x → Valid g (symbols ++ [x]) i.advance t

/-- A terminal is expected with an item after a sequence of symbols.  What begins where an item goes
on is expected with what the rest of the item begins with, whatever is expected with the item, and
when the rest can be empty, with what is expected with the item. -/
inductive Expected (g : Grammar) : List Symbol → Item → TokenId → Prop
  | start : Expected g [] (Item.start g.acceptProduction) TokenId.endOfInput
  | first {symbols : List Symbol} {i j : Item} {t : TokenId} :
    g.Viable symbols i → j ∈ g.successors i → g.Begins (g.tail i) t → Expected g symbols j t
  | carry {symbols : List Symbol} {i j : Item} {t : TokenId} :
    Expected g symbols i t → j ∈ g.successors i → g.Nullable (g.tail i) → Expected g symbols j t
  | goto {symbols : List Symbol} {i : Item} {x : Symbol} {t : TokenId} :
    Expected g symbols i t → g.nextSymbol? i = some x → Expected g (symbols ++ [x]) i.advance t

variable {g : Grammar} {a : ItemAutomaton} {l : Lookaheads} {symbols : List Symbol} {i : Item}
  {s : Nat} {t : TokenId}

/-! ### States

A sequence of symbols leads to one state at most, step by step from its end. -/

theorem stateAfter?_append {x : Symbol} :
    a.stateAfter? (symbols ++ [x]) = some s ↔
      ∃ s', a.stateAfter? symbols = some s' ∧ a.target? s' x = some s := by
  unfold ItemAutomaton.stateAfter?
  rw [List.foldlM_append]
  simp [Option.bind_eq_some_iff]

/-- A path ends with the state that its symbols lead to. -/
theorem stateAfter?_of_path {states : List Nat} (h : a.Path (s :: states) symbols) :
    a.stateAfter? symbols.reverse = some s := by
  generalize hall : s :: states = all at h
  induction h generalizing s states with
  | bottom =>
    obtain ⟨rfl, -⟩ := List.cons.inj hall
    rfl
  | push _ ht ih =>
    obtain ⟨rfl, -⟩ := List.cons.inj hall
    rw [List.reverse_cons]
    exact stateAfter?_append.2 ⟨_, ih rfl, ht⟩

/-- Symbols that lead to a state are spelled by a path. -/
theorem exists_path_of_stateAfter? (h : a.stateAfter? symbols = some s) :
    ∃ states, a.Path (s :: states) symbols.reverse := by
  induction symbols using List.reverseRecOn generalizing s with
  | nil =>
    obtain rfl := Option.some.inj h
    exact ⟨[], .bottom⟩
  | append_singleton symbols x ih =>
    obtain ⟨s', hs', ht⟩ := stateAfter?_append.1 h
    obtain ⟨states, hpath⟩ := ih hs'
    rw [List.reverse_append]
    exact ⟨s' :: states, hpath.push ht⟩

namespace IsAutomaton

/-- Symbols lead to states of the automaton. -/
theorem lt_size_of_stateAfter? (h : g.IsAutomaton a) (hs : a.stateAfter? symbols = some s) :
    s < a.size := by
  rcases List.eq_nil_or_concat symbols with rfl | ⟨symbols, x, rfl⟩
  · obtain rfl := Option.some.inj hs
    exact h.size_pos
  · rw [List.concat_eq_append, stateAfter?_append] at hs
    obtain ⟨s', -, ht⟩ := hs
    exact (h.target_lt _ _ _ ht).2

/-- Each state is reached. -/
theorem exists_stateAfter? (h : g.IsAutomaton a) (hs : s < a.size) :
    ∃ symbols, a.stateAfter? symbols = some s := by
  induction s using Nat.strongRecOn with
  | ind s ih =>
    rcases Nat.eq_zero_or_pos s with rfl | hpos
    · exact ⟨[], rfl⟩
    · obtain ⟨s', x, hlt, ht⟩ := h.origin s hpos hs
      obtain ⟨symbols, hsymbols⟩ := ih s' hlt (Nat.lt_trans hlt hs)
      exact ⟨symbols ++ [x], stateAfter?_append.2 ⟨s', hsymbols, ht⟩⟩

end IsAutomaton

/-! ### Viable items

An item is viable after some symbols when a derivation from the right can be at that place.  These
are the items of the state that the symbols lead to. -/

/-- Closures of viable items are viable. -/
theorem Viable.of_mem_closure {kernel : List Item} (h : ∀ k ∈ kernel, g.Viable symbols k)
    (hi : i ∈ g.closure kernel) : g.Viable symbols i := by
  obtain ⟨root, hroot, hpath⟩ := mem_closure_iff.1 hi
  clear hi
  induction hpath with
  | refl => exact h root hroot
  | tail _ hstep ih => exact ih.closure hstep

/-- **The viable items are those of the automaton**: the items in the closure of the state that the
symbols lead to. -/
theorem viable_iff (ha : g.IsAutomaton a) :
    g.Viable symbols i ↔ ∃ s, a.stateAfter? symbols = some s ∧ i ∈ g.closure (a.kernel s) := by
  constructor
  · intro h
    induction h with
    | start =>
      refine ⟨0, rfl, mem_closure_of_mem ?_⟩
      rw [ha.kernel_zero]
      exact List.mem_singleton_self _
    | closure _ hj ih =>
      obtain ⟨s, hs, hi⟩ := ih
      exact ⟨s, hs, mem_closure_of_successor hi hj⟩
    | @goto symbols i x _ hnext ih =>
      obtain ⟨s, hs, hi⟩ := ih
      obtain ⟨s', ht⟩ := ha.exists_target s i x (ha.lt_size_of_stateAfter? hs) hi hnext
      refine ⟨s', stateAfter?_append.2 ⟨s, hs, ht⟩, mem_closure_of_mem ?_⟩
      exact (ha.mem_kernel s x s' ht _).2 ⟨i, hi, hnext, rfl⟩
  · rintro ⟨s, hs, hi⟩
    -- from the end of the symbols: the kernel of their state is what has moved over the last one
    induction symbols using List.reverseRecOn generalizing s i with
    | nil =>
      obtain rfl := Option.some.inj hs
      refine .of_mem_closure ?_ hi
      intro k hk
      rw [ha.kernel_zero] at hk
      obtain rfl := List.mem_singleton.1 hk
      exact .start
    | append_singleton symbols x ih =>
      obtain ⟨s', hs', ht⟩ := stateAfter?_append.1 hs
      refine .of_mem_closure ?_ hi
      intro k hk
      obtain ⟨j, hj, hnext, rfl⟩ := (ha.mem_kernel s' x s ht k).1 hk
      exact (ih s' hs' hj).goto hnext

/-- What is expected with a terminal is viable. -/
theorem Expected.viable (h : g.Expected symbols i t) : g.Viable symbols i := by
  induction h with
  | start => exact .start
  | first hi hj _ => exact hi.closure hj
  | carry _ hj _ ih => exact ih.closure hj
  | goto _ hnext ih => exact ih.goto hnext

/-! ### What follows is expected

Lookaheads travel along the passages of the automaton, and what is expected travels along the
symbols.  Each step of one is a step of the other. -/

/-- What follows an item of a closure is expected when what is given for the kernel items is. -/
theorem Expected.of_follows (hg : g.WellFormed) {kernel : ItemTable}
    (hviable : ∀ k ∈ kernel.map Prod.fst, g.Viable symbols k)
    (hexpected : ∀ k set, (k, set) ∈ kernel → ∀ t ∈ set, g.Expected symbols k t)
    (h : g.Follows kernel i t) : g.Expected symbols i t := by
  induction h with
  | kernel hi ht => exact hexpected _ _ hi _ ht
  | first hi hj ht => exact .first (.of_mem_closure hviable hi) hj ((mem_firstOf_iff hg).1 ht)
  | carry _ hj hnull ih => exact ih.carry hj ((nullable_firstOf_iff hg).1 hnull)

/-- What arrives at a kernel item of a state is expected after some sequence that leads there. -/
theorem Arrives.exists_expected (hg : g.WellFormed) (ha : g.IsAutomaton a)
    (h : g.Arrives a s i t) :
    ∃ symbols, a.stateAfter? symbols = some s ∧ g.Expected symbols i t := by
  induction h with
  | initial => exact ⟨[], rfl, .start⟩
  | @always p t hp ht =>
    obtain ⟨j, x, hpassage⟩ := exists_isPassage hg hp
    obtain ⟨hne, hfollows⟩ := (hpassage.mem_always t).1 ht
    obtain ⟨symbols, hsymbols⟩ := ha.exists_stateAfter? hpassage.state_lt
    refine ⟨symbols ++ [x], stateAfter?_append.2 ⟨_, hsymbols, hpassage.target⟩, ?_⟩
    rw [hpassage.arrival]
    -- the terminal arrives whatever follows the kernel item, so nothing needs to follow it
    have hnone : g.Follows [(p.item, [])] j t :=
      (follows_iff_of_mark hg).2 ⟨p.item, [], List.mem_singleton_self _, .inl ⟨hne, hfollows⟩⟩
    refine Expected.goto (.of_follows hg ?_ ?_ hnone) hpassage.next
    · intro k hk
      obtain rfl := List.mem_singleton.1 hk
      exact (viable_iff ha).2 ⟨_, hsymbols, mem_closure_of_mem hpassage.mem_kernel⟩
    · intro k set hk u hu
      obtain ⟨-, rfl⟩ := Prod.mk.inj (List.mem_singleton.1 hk)
      cases hu
  | @carry p t hp hcarries _ ih =>
    obtain ⟨j, x, hpassage⟩ := exists_isPassage hg hp
    obtain ⟨symbols, hsymbols, hitem⟩ := ih
    refine ⟨symbols ++ [x], stateAfter?_append.2 ⟨_, hsymbols, hpassage.target⟩, ?_⟩
    rw [hpassage.arrival]
    have hone : g.Follows [(p.item, [t])] j t :=
      (follows_iff_of_mark hg).2 ⟨p.item, [t], List.mem_singleton_self _,
        .inr ⟨hpassage.carries.1 hcarries, List.mem_singleton_self t⟩⟩
    refine Expected.goto (.of_follows hg ?_ ?_ hone) hpassage.next
    · intro k hk
      obtain rfl := List.mem_singleton.1 hk
      exact hitem.viable
    · intro k set hk u hu
      obtain ⟨rfl, rfl⟩ := Prod.mk.inj (List.mem_singleton.1 hk)
      obtain rfl := List.mem_singleton.1 hu
      exact hitem

namespace IsLookaheads

/-- What is expected with an item follows it in the state that the symbols lead to. -/
theorem follows_of_expected (hl : g.IsLookaheads a l) (hg : g.WellFormed) (ha : g.IsAutomaton a)
    (h : g.Expected symbols i t) (hs : a.stateAfter? symbols = some s) :
    g.Follows (l.state s) i t := by
  induction h generalizing s with
  | start =>
    obtain rfl := Option.some.inj hs
    exact hl.follows_of_mem_follow ha ((hl.follow_iff _ _ _).2 .initial)
  | first hi hj ht =>
    obtain ⟨s', hs', hclosure⟩ := (viable_iff ha).1 hi
    obtain rfl := Option.some.inj (hs.symm.trans hs')
    rw [← hl.isOver.map_fst] at hclosure
    exact .first hclosure hj ((mem_firstOf_iff hg).2 ht)
  | carry _ hj hnull ih => exact (ih hs).carry hj ((nullable_firstOf_iff hg).2 hnull)
  | goto _ hnext ih =>
    obtain ⟨s', hs', ht⟩ := stateAfter?_append.1 hs
    exact hl.follows_of_mem_follow ha (hl.mem_follow_of_follows hg ha (ih hs') hnext ht)

/-- In the closure of a state no more follows a kernel item than in the lookaheads. -/
theorem mem_follow_of_mem_kernel (hl : g.IsLookaheads a l) (ha : g.IsAutomaton a)
    (hi : i ∈ a.kernel s) (h : g.Follows (l.state s) i t) : t ∈ l.follow s i := by
  -- nothing goes on with the start symbol of the augmented grammar, so no other item begins here
  have hnot : ∀ j, i ∉ g.successors j := by
    intro j hj
    have heq := (ha.eq_zero_of_dot_eq_zero hi (dot_of_successor hj)).2
    have hlt := production_lt_of_successor hj
    rw [heq] at hlt
    exact absurd hlt (Nat.lt_irrefl _)
  cases h with
  | kernel hset ht => exact (hl.mem_follow_iff ha).2 ⟨_, hset, ht⟩
  | first _ hj _ => exact absurd hj (hnot _)
  | carry _ hj _ => exact absurd hj (hnot _)

/-- **The lookaheads are what is expected** after the sequences that lead to the state. -/
theorem mem_follow_iff_expected (hl : g.IsLookaheads a l) (hg : g.WellFormed)
    (ha : g.IsAutomaton a) (hi : i ∈ a.kernel s) :
    t ∈ l.follow s i ↔ ∃ symbols, a.stateAfter? symbols = some s ∧ g.Expected symbols i t := by
  constructor
  · intro ht
    exact ((hl.follow_iff s i t).1 ht).exists_expected hg ha
  · rintro ⟨symbols, hs, h⟩
    exact hl.mem_follow_of_mem_kernel ha hi (hl.follows_of_expected hg ha h hs)

/-- What follows an item in a state is expected after some sequence that leads there. -/
theorem exists_expected_of_follows (hl : g.IsLookaheads a l) (hg : g.WellFormed)
    (ha : g.IsAutomaton a) (hs : s < a.size) (h : g.Follows (l.state s) i t) :
    ∃ symbols, a.stateAfter? symbols = some s ∧ g.Expected symbols i t := by
  induction h with
  | @kernel i set t hset ht =>
    have hi : i ∈ a.kernel s := hl.isOver.map_fst s ▸ List.mem_map_of_mem hset
    exact (hl.mem_follow_iff_expected hg ha hi).1 ((hl.mem_follow_iff ha).2 ⟨set, hset, ht⟩)
  | first hi hj ht =>
    obtain ⟨symbols, hsymbols⟩ := ha.exists_stateAfter? hs
    rw [hl.isOver.map_fst] at hi
    have hviable := (viable_iff ha).2 ⟨s, hsymbols, hi⟩
    exact ⟨symbols, hsymbols, .first hviable hj ((mem_firstOf_iff hg).1 ht)⟩
  | carry _ hj hnull ih =>
    obtain ⟨symbols, hsymbols, hexpected⟩ := ih
    exact ⟨symbols, hsymbols, hexpected.carry hj ((nullable_firstOf_iff hg).1 hnull)⟩

end IsLookaheads

/-- An item that has moved over its right-hand side justifies the reduction of its production, in
front of each terminal that is expected with it. -/
theorem Expected.justified_reduce (hg : g.WellFormed) {p : Nat} {production : Production}
    (hp : g.productions[p]? = some production)
    (h : g.Expected symbols ⟨p, production.rhs.length⟩ t)
    (hs : g.automaton.stateAfter? symbols = some s) :
    g.Justified g.automaton (g.lookaheads g.automaton) s t (.reduce p) ∧
      t ∈ concerned g.automaton (g.completionsOf (g.lookaheads g.automaton) s) s := by
  have ha := g.isAutomaton_automaton
  have hl := isLookaheads hg
  have hcomplete : g.isComplete ⟨p, production.rhs.length⟩ = true :=
    isComplete_of_dot_eq (by rw [rhsOf_of_getElem? hp])
  have hne : p ≠ g.acceptProduction := Nat.ne_of_lt (Array.getElem?_eq_some_iff.1 hp).choose
  have hfollows := hl.follows_of_expected hg ha h hs
  exact ⟨⟨hne, _, hfollows, hcomplete, rfl⟩,
    mem_concerned_of_follows hg ha hl hfollows hcomplete⟩

/-- A reduction is justified only behind a right-hand side. -/
theorem exists_of_justified_reduce (hg : g.WellFormed)
    (hs : g.automaton.stateAfter? symbols = some s) {p : Nat}
    (h : g.Justified g.automaton (g.lookaheads g.automaton) s t (.reduce p)) :
    ∃ production front, g.productions[p]? = some production ∧
      symbols = front ++ production.rhs := by
  have ha := g.isAutomaton_automaton
  obtain ⟨states, hpath⟩ := exists_path_of_stateAfter? hs
  obtain ⟨hne, i, hfollows, hcomplete, rfl⟩ := h
  have hi : i ∈ g.closure (g.automaton.kernel s) :=
    (isLookaheads hg).isOver.map_fst s ▸ hfollows.mem_closure
  have hlt : i.production < g.productions.size :=
    Nat.lt_of_le_of_ne (mem_items.1 (ha.mem_items_of_mem_closure hi)).1 hne
  have hp : g.productions[i.production]? = some g.productions[i.production] :=
    Array.getElem?_eq_getElem hlt
  obtain ⟨-, -, symbols', -, hsymbols, -, -⟩ := ha.unwind_complete hpath hi hcomplete
  rw [rhsOf_of_getElem? hp] at hsymbols
  refine ⟨_, symbols'.reverse, hp, ?_⟩
  rw [← List.reverse_reverse symbols, hsymbols, List.reverse_append, List.reverse_reverse]

/-- Behind the start symbol the end is justified. -/
theorem justified_accept (hg : g.WellFormed)
    (hs : g.automaton.stateAfter? [.nonterminal g.start] = some s) :
    g.Justified g.automaton (g.lookaheads g.automaton) s TokenId.endOfInput .accept ∧
      TokenId.endOfInput ∈
        concerned g.automaton (g.completionsOf (g.lookaheads g.automaton) s) s := by
  have ha := g.isAutomaton_automaton
  have hl := isLookaheads hg
  have hread : g.Expected [.nonterminal g.start] ⟨g.acceptProduction, 1⟩ TokenId.endOfInput :=
    Expected.start.goto (nextSymbol?_of_drop g.drop_accept)
  have hfollows := hl.follows_of_expected hg ha hread hs
  exact ⟨⟨rfl, _, hl.isOver.map_fst s ▸ hfollows.mem_closure, g.isComplete_accept, rfl⟩,
    mem_concerned_of_follows hg ha hl hfollows g.isComplete_accept⟩

/-- The end is justified only behind the start symbol. -/
theorem eq_of_justified_accept (hs : g.automaton.stateAfter? symbols = some s)
    (h : g.Justified g.automaton (g.lookaheads g.automaton) s t .accept) :
    symbols = [.nonterminal g.start] := by
  obtain ⟨states, hpath⟩ := exists_path_of_stateAfter? hs
  obtain ⟨-, i, hi, hcomplete, haccept⟩ := h
  have hreverse := g.isAutomaton_automaton.unwind_accept hpath hi hcomplete haccept
  rw [← List.reverse_reverse symbols, hreverse]
  rfl

/-- **What an item has read can be taken back**: in front of it its production begins, and the same
terminal is expected. -/
theorem Expected.unwind (h : g.Expected symbols i t) :
    ∃ front, symbols = front ++ (g.rhsOf i.production).take i.dot ∧
      g.Expected front (Item.start i.production) t := by
  induction h with
  | start => exact ⟨[], rfl, .start⟩
  | @first symbols i j t hi hj hbegins =>
    have hstart : Item.start j.production = j := by rw [Item.start, ← dot_of_successor hj]
    refine ⟨symbols, ?_, hstart.symm ▸ .first hi hj hbegins⟩
    rw [dot_of_successor hj, List.take_zero, List.append_nil]
  | @carry symbols i j t hi hj hnull _ =>
    have hstart : Item.start j.production = j := by rw [Item.start, ← dot_of_successor hj]
    refine ⟨symbols, ?_, hstart.symm ▸ .carry hi hj hnull⟩
    rw [dot_of_successor hj, List.take_zero, List.append_nil]
  | @goto symbols i x t _ hnext ih =>
    obtain ⟨front, rfl, hfront⟩ := ih
    have hx : (g.rhsOf i.production)[i.dot]? = some x := hnext
    refine ⟨front, ?_, hfront⟩
    rw [Item.advance, List.take_add_one, hx, List.append_assoc]
    rfl

/-! ### What is expected is valid

The canonical construction lets an item begin only with what can be seen behind it.  Where all
nonterminals are productive, something can be seen behind every item, so nothing is lost. -/

/-- What is valid is expected in any case. -/
theorem Valid.expected (hg : g.WellFormed) (h : g.Valid symbols i t) : g.Expected symbols i t := by
  induction h with
  | start => exact .start
  | closure _ hj hbegins ih =>
    rcases (begins_append_terminal hg).1 hbegins with hfirst | ⟨hnull, rfl⟩
    · exact .first ih.viable hj hfirst
    · exact ih.carry hj hnull
  | goto _ hnext ih => exact ih.goto hnext

/-- The nonterminals of a viable item occur. -/
theorem Viable.occurs (h : g.Viable symbols i) {v : Nat}
    (hv : .nonterminal v ∈ g.rhsOf i.production) : g.Occurs v := by
  induction h generalizing v with
  | start =>
    have hv : Symbol.nonterminal v ∈ g.rhsOf g.acceptProduction := hv
    rw [rhsOf_accept] at hv
    cases List.mem_singleton.1 hv
    exact ⟨[], [], .refl⟩
  | closure _ hj ih =>
    obtain ⟨p, production, hp, hnext, rfl⟩ := mem_successors.1 hj
    have hv : Symbol.nonterminal v ∈ g.rhsOf p := hv
    rw [rhsOf_of_getElem? hp] at hv
    exact (ih (List.mem_of_getElem? hnext)).of_mem_rhs (Array.mem_of_getElem? hp) hv
  | goto _ _ ih => exact ih hv

/-- Something can be seen where a terminal stands behind productive nonterminals: the sentence that
they derive begins with it, or else the terminal comes first. -/
theorem exists_begins {seq : List Symbol} (h : ∀ v, .nonterminal v ∈ seq → g.Productive v)
    (t : TokenId) : ∃ u, g.Begins (seq ++ [.terminal t]) u := by
  obtain ⟨w, hw⟩ := exists_sentence h
  have hbehind := hw.append_right [.terminal t]
  cases w with
  | nil => exact ⟨t, [], hbehind⟩
  | cons u w => exact ⟨u, _, hbehind⟩

/-- The nonterminals behind the next symbol of a viable item are productive when all nonterminals
that occur are. -/
theorem Viable.productive_tail (hproductive : ∀ v, g.Occurs v → g.Productive v)
    (h : g.Viable symbols i) : ∀ v, .nonterminal v ∈ g.tail i → g.Productive v :=
  fun v hv => hproductive v (h.occurs (List.mem_of_mem_drop hv))

/-- Where all nonterminals are productive, something can be seen behind each viable item. -/
theorem Viable.exists_valid (hproductive : ∀ v, g.Occurs v → g.Productive v)
    (h : g.Viable symbols i) : ∃ t, g.Valid symbols i t := by
  induction h with
  | start => exact ⟨_, .start⟩
  | closure hi hj ih =>
    obtain ⟨t, hvalid⟩ := ih
    obtain ⟨u, hbegins⟩ := exists_begins (hi.productive_tail hproductive) t
    exact ⟨u, hvalid.closure hj hbegins⟩
  | goto _ hnext ih =>
    obtain ⟨t, hvalid⟩ := ih
    exact ⟨t, hvalid.goto hnext⟩

/-- **Where all nonterminals are productive, what is expected is valid.** -/
theorem valid_iff_expected (hg : g.WellFormed)
    (hproductive : ∀ v, g.Occurs v → g.Productive v) :
    g.Valid symbols i t ↔ g.Expected symbols i t := by
  refine ⟨Valid.expected hg, ?_⟩
  intro h
  induction h with
  | start => exact .start
  | first hi hj hfirst =>
    obtain ⟨u, hvalid⟩ := hi.exists_valid hproductive
    exact hvalid.closure hj ((begins_append_terminal hg).2 (.inl hfirst))
  | carry _ hj hnull ih => exact ih.closure hj ((begins_append_terminal hg).2 (.inr ⟨hnull, rfl⟩))
  | goto _ hnext ih => exact ih.goto hnext

end Grammar

/-! ### Lookaheads of a definition

Both readings of a lookahead, and a grammar where they differ. -/

/-- **The lookaheads of a kernel item** are what is expected with it after the sequences of symbols
that lead to its state.  So they have each terminal that the item is valid with after one of them,
and no other one where all nonterminals that occur are productive. -/
theorem GrammarDefinition.mem_lookaheads_iff {d : GrammarDefinition} {g : Grammar}
    (hd : d.Reachable) (h : d.resolve = .ok g) {s : Nat} {i : Item}
    (hi : i ∈ g.generate.automaton.kernel s) (t : TokenId) :
    (t ∈ g.generate.lookaheads.follow s i ↔
      ∃ symbols, g.generate.automaton.stateAfter? symbols = some s ∧ g.Expected symbols i t) ∧
    ((∃ symbols, g.generate.automaton.stateAfter? symbols = some s ∧ g.Valid symbols i t) →
      t ∈ g.generate.lookaheads.follow s i) ∧
    ((∀ v, g.Occurs v → g.Productive v) →
      (t ∈ g.generate.lookaheads.follow s i ↔
        ∃ symbols, g.generate.automaton.stateAfter? symbols = some s ∧ g.Valid symbols i t)) := by
  have hg := d.wellFormed_of_resolve hd h
  rw [Grammar.automaton_generate] at hi ⊢
  rw [Grammar.lookaheads_generate]
  have hexpected : t ∈ (g.lookaheads g.automaton).follow s i ↔
      ∃ symbols, g.automaton.stateAfter? symbols = some s ∧ g.Expected symbols i t :=
    (Grammar.isLookaheads hg).mem_follow_iff_expected hg g.isAutomaton_automaton hi
  refine ⟨hexpected, ?_, ?_⟩
  · rintro ⟨symbols, hs, hvalid⟩
    exact hexpected.2 ⟨symbols, hs, hvalid.expected hg⟩
  · intro hproductive
    rw [hexpected]
    apply exists_congr
    intro symbols
    apply and_congr_right
    intro _
    exact (Grammar.valid_iff_expected hg hproductive).symm

/-- Assignments to places.  A place can be read as a value, but not in front of an equality sign. -/
def assignments : GrammarDefinition :=
  ((((GrammarDefinition.empty.declareTokens "equal star name").2.addProductions "assignment"
    "place equal value | value").2.addProductions "place" "star value | name").2.addProductions
      "value" "place").2

/-- When a place has been read first, it is valid as a value at the end of the input, and after no
sequence in front of an equality sign. -/
theorem GrammarDefinition.mem_lookaheads_assignments :
    ∃ g, assignments.resolve = .ok g ∧
      (∃ symbols, g.generate.automaton.stateAfter? symbols = some 4 ∧ g.Valid symbols ⟨4, 1⟩ 0) ∧
      ¬ ∃ symbols, g.generate.automaton.stateAfter? symbols = some 4 ∧
        g.Valid symbols ⟨4, 1⟩ 1 := by
  have hassignments : (match assignments.resolve with
      | .ok g => some (g.productions.toList, g.numNonterminals, g.generate.automaton.kernel 4,
          g.generate.lookaheads.follow 4 ⟨4, 1⟩)
      | .error _ => none) = some ([⟨0, [.nonterminal 1, .terminal 1, .nonterminal 2], none⟩,
        ⟨0, [.nonterminal 2], none⟩, ⟨1, [.terminal 2, .nonterminal 2], none⟩,
        ⟨1, [.terminal 3], none⟩, ⟨2, [.nonterminal 1], none⟩], 3, [⟨0, 1⟩, ⟨4, 1⟩], [0]) := by
    decide +kernel
  have hd : assignments.Reachable :=
    .productions _ _ (.productions _ _ (.productions _ _ (.tokens _ .empty)))
  split at hassignments
  · next g hresolve =>
    simp only [Option.some.injEq, Prod.mk.injEq] at hassignments
    obtain ⟨hproductions, hcount, hkernel, hfollow⟩ := hassignments
    have hmem : ∀ p ∈ g.productions.toList, g.Derives [.nonterminal p.lhs] p.rhs :=
      fun p hp => Grammar.derives_of_mem (Array.mem_toList_iff.1 hp)
    rw [hproductions] at hmem
    have hplace : g.Derives [.nonterminal 1] [.terminal 3] :=
      hmem ⟨1, [.terminal 3], none⟩ (by simp)
    have hvalue : g.Derives [.nonterminal 2] [.terminal 3] :=
      (hmem ⟨2, [.nonterminal 1], none⟩ (by simp)).trans hplace
    have hassignment : g.Derives [.nonterminal 0] [.terminal 3] :=
      (hmem ⟨0, [.nonterminal 2], none⟩ (by simp)).trans hvalue
    have hproductive : ∀ v, g.Occurs v → g.Productive v := by
      intro v hv
      have hlt := hv.lt_numNonterminals (assignments.wellFormed_of_resolve hd hresolve)
      rw [hcount] at hlt
      refine ⟨[3], ?_⟩
      match v, hlt with
      | 0, _ => exact hassignment
      | 1, _ => exact hplace
      | 2, _ => exact hvalue
    have hi : (⟨4, 1⟩ : Item) ∈ g.generate.automaton.kernel 4 := by simp [hkernel]
    have hiff := fun t => (mem_lookaheads_iff hd hresolve hi t).2.2 hproductive
    refine ⟨g, hresolve, ?_, ?_⟩
    · rw [← hiff, hfollow]
      exact List.mem_singleton_self _
    · rw [← hiff, hfollow]
      decide
  · cases hassignments

/-- Sequences that end with what never ends: each `u` has another one in front. -/
def endless : GrammarDefinition :=
  ((((GrammarDefinition.empty.declareTokens "a b c d").2.addProductions "s"
    "a | t u").2.addProductions "t" "t b | c").2.addProductions "u" "u d").2

/-- Where a nonterminal derives no sentence, a lookahead need not be valid: what begins in front of
`u` is valid with no terminal, and still it has the lookahead that it hands to itself. -/
theorem GrammarDefinition.mem_lookaheads_endless :
    ∃ g, endless.resolve = .ok g ∧ ⟨3, 1⟩ ∈ g.generate.automaton.kernel 2 ∧
      2 ∈ g.generate.lookaheads.follow 2 ⟨3, 1⟩ ∧
      ¬ ∃ symbols, g.generate.automaton.stateAfter? symbols = some 2 ∧
        g.Valid symbols ⟨3, 1⟩ 2 := by
  have hendless : (match endless.resolve with
      | .ok g => some (g.productions.toList, g.firstOf [.nonterminal 2],
          g.generate.automaton.kernel 2, g.generate.lookaheads.follow 2 ⟨3, 1⟩)
      | .error _ => none) = some ([⟨0, [.terminal 1], none⟩,
        ⟨0, [.nonterminal 1, .nonterminal 2], none⟩, ⟨1, [.nonterminal 1, .terminal 2], none⟩,
        ⟨1, [.terminal 3], none⟩, ⟨2, [.nonterminal 2, .terminal 4], none⟩], ⟨[], false⟩,
        [⟨3, 1⟩], [2]) := by decide +kernel
  have hd : endless.Reachable :=
    .productions _ _ (.productions _ _ (.productions _ _ (.tokens _ .empty)))
  split at hendless
  · next g hresolve =>
    simp only [Option.some.injEq, Prod.mk.injEq] at hendless
    obtain ⟨hproductions, hfirst, hkernel, hfollow⟩ := hendless
    have hg := endless.wellFormed_of_resolve hd hresolve
    have hget : ∀ p : Nat, g.productions[p]? = _ :=
      fun p => by rw [← Array.getElem?_toList, hproductions]
    have hstart : g.start = 0 := by rw [Grammar.start, hproductions]; rfl
    -- only `s` and `t` go on with `t`, and nothing can be seen behind it in the production of `s`
    have hnext : ∀ p dot, (g.rhsOf p)[dot]? = some (.nonterminal 1) → p = 2 ∨ p = 1 ∧ dot = 0 := by
      intro p dot h
      rw [Grammar.rhsOf, hget] at h
      rcases p with _ | _ | _ | _ | _ | p <;> rcases dot with _ | _ | dot <;> simp_all
    have hbehind : ∀ t u, ¬ g.Begins ([.nonterminal 2] ++ [.terminal t]) u := by
      intro t u hbegins
      rcases (Grammar.begins_append_terminal hg).1 hbegins with hu | ⟨hnull, -⟩
      · rw [← Grammar.mem_firstOf_iff hg, hfirst] at hu
        cases hu
      · rw [← Grammar.nullable_firstOf_iff hg, hfirst] at hnull
        cases hnull
    have hnever : ∀ symbols i t, g.Valid symbols i t → i.production ≠ 2 ∧ i.production ≠ 3 := by
      intro symbols i t h
      induction h with
      | start =>
        show g.productions.size ≠ 2 ∧ g.productions.size ≠ 3
        rw [← Array.length_toList, hproductions]
        decide
      | @closure symbols i j t u _ hj hbegins ih =>
        obtain ⟨p, production, hp, hi, rfl⟩ := Grammar.mem_successors.1 hj
        have hlhs : production.lhs ≠ 1 := by
          intro heq
          rw [heq] at hi
          rcases hnext _ _ hi with h2 | ⟨h1, hdot⟩
          · exact ih.1 h2
          · apply hbehind t u
            have htail : g.tail i = [.nonterminal 2] := by
              rw [Grammar.tail, h1, hdot, Grammar.rhsOf, hget]
              rfl
            rwa [htail] at hbegins
        rw [hget] at hp
        constructor <;> rintro rfl <;> cases hp <;> exact hlhs rfl
      | goto _ _ ih => exact ih
    refine ⟨g, hresolve, by simp [hkernel], by simp [hfollow], ?_⟩
    rintro ⟨symbols, -, hvalid⟩
    exact (hnever _ _ _ hvalid).2 rfl
  · cases hendless

end FrontEnd
