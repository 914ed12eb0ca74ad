import FrontEnd.Proofs.Lalr.Canonical

/-!
# Closures by increments

A closure with lookaheads hands on only what an item did not have before.  It ends with what the
whole sets would lead to, whether the items that come up are taken in one order or the other, and
whether or not an item hands on once more what its rest begins with.

By the rule of the canonical construction an item needs a terminal to hand anything on.  A closure
asks for none: an item without terminals hands on what its rest begins with.  So it has all that the
rule gives, and can have more only where the rule leaves an item without terminals.

## Main Definitions

* `Grammar.Given` — a terminal for an item, by the rule of the canonical construction
* `Grammar.Foreseen` — the same when also items without terminals go on
* `Grammar.IsForeseen` — a table with the items of a closure and the terminals foreseen for them
* `Grammar.pushItem` — a step that takes the items from a stack, and hands on all of them

## Main Statements

* `Grammar.given_iff_foreseen` — where each item is given some terminal, what is foreseen is given
* `Grammar.Increments.isForeseen_run` — every closure by increments leads to what is foreseen
* `GrammarDefinition.closureWithLookaheads_exact` — the terminals of each item of a closure
-/

namespace FrontEnd

namespace Grammar

/-! ### Terminals that are given or foreseen

Both are least relations on items and terminals.  The first one asks for a terminal before an item
goes on, the second one does not, and that is the only difference. -/

/-- A terminal is given for an item: by the list, or by the rule of the canonical construction.
What begins where an item goes on is given each terminal that the rest of the item and its terminal
begin with. -/
inductive Given (g : Grammar) (kernel : ItemTable) : Item → TokenId → Prop
  | kernel {i : Item} {s : TokenSet} {t : TokenId} : (i, s) ∈ kernel → t ∈ s → Given g kernel i t
  | closure {i j : Item} {t u : TokenId} :
    Given g kernel i t → j ∈ g.successors i → g.Begins (g.tail i ++ [.terminal t]) u →
      Given g kernel j u

/-- A terminal is foreseen for an item: by the list, or for what begins where an item of the closure
goes on.  That is what the rest of the item begins with, whatever is foreseen for the item, and when
the rest can be empty, also what is foreseen for the item. -/
inductive Foreseen (g : Grammar) (kernel : ItemTable) : Item → TokenId → Prop
  | kernel {i : Item} {s : TokenSet} {t : TokenId} :
    (i, s) ∈ kernel → t ∈ s → Foreseen g kernel i t
  | first {i j : Item} {t : TokenId} : i ∈ g.closure (kernel.map Prod.fst) →
    j ∈ g.successors i → g.Begins (g.tail i) t → Foreseen g kernel j t
  | carry {i j : Item} {t : TokenId} :
    Foreseen g kernel i t → j ∈ g.successors i → g.Nullable (g.tail i) → Foreseen g kernel j t

variable {g : Grammar} {kernel table todo : ItemTable} {i : Item} {t : TokenId}

/-- What follows an item of a closure is what is foreseen for it. -/
theorem follows_iff_foreseen (hg : g.WellFormed) :
    g.Follows kernel i t ↔ g.Foreseen kernel i t := by
  constructor
  · intro h
    induction h with
    | kernel hi ht => exact .kernel hi ht
    | first hi hj ht => exact .first hi hj ((mem_firstOf_iff hg).1 ht)
    | carry _ hj hnull ih => exact .carry ih hj ((nullable_firstOf_iff hg).1 hnull)
  · intro h
    induction h with
    | kernel hi ht => exact .kernel hi ht
    | first hi hj ht => exact .first hi hj ((mem_firstOf_iff hg).2 ht)
    | carry _ hj hnull ih => exact .carry ih hj ((nullable_firstOf_iff hg).2 hnull)

/-- Terminals are given to items of the closure only. -/
theorem Given.mem_closure (h : g.Given kernel i t) : i ∈ g.closure (kernel.map Prod.fst) := by
  induction h with
  | kernel hi _ => exact mem_closure_of_mem (List.mem_map_of_mem hi)
  | closure _ hj _ ih => exact mem_closure_of_successor ih hj

/-- What is given is foreseen. -/
theorem Given.foreseen (hg : g.WellFormed) (h : g.Given kernel i t) : g.Foreseen kernel i t := by
  induction h with
  | kernel hi ht => exact .kernel hi ht
  | closure hi hj hbegins ih =>
    rcases (begins_append_terminal hg).1 hbegins with hfirst | ⟨hnull, rfl⟩
    · exact .first hi.mem_closure hj hfirst
    · exact .carry ih hj hnull

/-- **Where each item is given some terminal, what is foreseen is given.** -/
theorem given_iff_foreseen (hg : g.WellFormed)
    (hall : ∀ i ∈ g.closure (kernel.map Prod.fst), ∃ t, g.Given kernel i t) :
    g.Given kernel i t ↔ g.Foreseen kernel i t := by
  refine ⟨Given.foreseen hg, fun h => ?_⟩
  induction h with
  | kernel hi ht => exact .kernel hi ht
  | first hi hj hfirst =>
    obtain ⟨u, hu⟩ := hall _ hi
    exact .closure hu hj ((begins_append_terminal hg).2 (.inl hfirst))
  | carry _ hj hnull ih => exact .closure ih hj ((begins_append_terminal hg).2 (.inr ⟨hnull, rfl⟩))

/-- The rest of an item is in a right-hand side: nothing is behind the start symbol of the augmented
production. -/
theorem exists_mem_rhs_of_mem_tail {x : Symbol} (h : x ∈ g.tail i) :
    ∃ p ∈ g.productions, x ∈ p.rhs := by
  unfold tail rhsOf at h
  split at h
  · next p hp => exact ⟨p, Array.mem_of_getElem? hp, List.mem_of_mem_drop h⟩
  · simp at h

/-- Where all nonterminals are productive, every item is given a terminal when those of the list
are. -/
theorem exists_given (hkernel : ∀ i ∈ kernel.map Prod.fst, ∃ s, (i, s) ∈ kernel ∧ s ≠ [])
    (hproductive : ∀ p ∈ g.productions, ∀ v, .nonterminal v ∈ p.rhs → g.Productive v)
    (hi : i ∈ g.closure (kernel.map Prod.fst)) : ∃ t, g.Given kernel i t := by
  obtain ⟨root, hroot, hpath⟩ := mem_closure_iff.1 hi
  clear hi
  induction hpath with
  | refl =>
    obtain ⟨s, hs, hne⟩ := hkernel root hroot
    obtain ⟨t, ht⟩ := List.exists_mem_of_ne_nil s hne
    exact ⟨t, .kernel hs ht⟩
  | @tail i j _ hj ih =>
    -- the rest of the item derives a sentence, and the terminal of the item stands behind it
    obtain ⟨t, ht⟩ := ih
    have hall : ∀ v, .nonterminal v ∈ g.tail i → g.Productive v := by
      intro v hv
      obtain ⟨p, hp, hmem⟩ := exists_mem_rhs_of_mem_tail hv
      exact hproductive p hp v hmem
    obtain ⟨u, hbegins⟩ := exists_begins hall t
    exact ⟨u, ht.closure hj hbegins⟩

/-! ### What every closure by increments leads to

Entries are kept sorted and without repetitions along the way.  So the result is determined by its
members, and all strategies lead to equal entries. -/

/-- A table has the items of a closure, each once, with the terminals foreseen for them in ascending
order. -/
structure IsForeseen (g : Grammar) (kernel table : ItemTable) : Prop where
  nodup : (table.map Prod.fst).Nodup
  mem_iff : ∀ i, i ∈ table.map Prod.fst ↔ i ∈ g.closure (kernel.map Prod.fst)
  sorted : ∀ e ∈ table, Sorted.IsSorted TokenSet.before e.2
  foreseen_iff : ∀ e ∈ table, ∀ t, t ∈ e.2 ↔ g.Foreseen kernel e.1 t

/-- What is foreseen determines the table, but for the order of its items. -/
theorem IsForeseen.lookup_eq {table' : ItemTable} (h : g.IsForeseen kernel table)
    (h' : g.IsForeseen kernel table') (i : Item) : table.lookup i = table'.lookup i := by
  have hsome : ∀ {table table' : ItemTable}, g.IsForeseen kernel table →
      g.IsForeseen kernel table' → ∀ s, table.lookup i = some s → table'.lookup i = some s := by
    intro table table' h h' s hs
    rw [lookup_eq_some_iff_mem h.nodup] at hs
    have hi : i ∈ table'.map Prod.fst :=
      (h'.mem_iff i).2 ((h.mem_iff i).1 (List.mem_map_of_mem hs))
    obtain ⟨⟨_, s'⟩, hs', rfl⟩ := List.mem_map.1 hi
    have heq : s = s' := (h.sorted _ hs).ext TokenSet.order_before (h'.sorted _ hs') fun t =>
      (h.foreseen_iff _ hs t).trans (h'.foreseen_iff _ hs' t).symm
    rw [lookup_eq_some_iff_mem h'.nodup, heq]
    exact hs'
  exact Option.ext fun s => ⟨hsome h h' s, hsome h' h s⟩

/-- What is handed on is sorted. -/
theorem isSorted_followOfTail (hg : g.WellFormed) {s : TokenSet}
    (hs : Sorted.IsSorted TokenSet.before s) (i : Item) :
    Sorted.IsSorted TokenSet.before (g.followOfTail i s) := by
  have hfirst : Sorted.IsSorted TokenSet.before (g.firstOf (g.tail i)).first := by
    have hascending : g.first.Ascending := hg.first_eq ▸ ascending_firstTable _ _
    exact hascending.firstOfSeq _
  unfold followOfTail
  dsimp only
  split
  · exact Sorted.isSorted_union TokenSet.order_before hs _
  · exact hfirst

/-- All sets of a table and of the entries left are in ascending order. -/
def SortedEntries (table todo : ItemTable) : Prop :=
  ∀ e, e ∈ table ∨ e ∈ todo → Sorted.IsSorted TokenSet.before e.2

/-- Entries that wait may be dropped. -/
theorem SortedEntries.skip {e : Item × TokenSet} {rest : ItemTable}
    (h : SortedEntries table (e :: rest)) : SortedEntries table rest :=
  fun e' he' => h e' (he'.imp_right (List.mem_cons_of_mem e))

/-- A step that absorbs an entry keeps all entries sorted. -/
theorem SortedEntries.take (hg : g.WellFormed) {s : TokenSet} {rest table' more : ItemTable}
    (hnodup : (table.map Prod.fst).Nodup) (h : SortedEntries table ((i, s) :: rest))
    (habsorbed : g.Absorbed table i s table' more) : SortedEntries table' (more ++ rest) := by
  refine habsorbed.forall_entries hnodup (fun {s e} hs he => ?_) (fun _ hs => hs.filter _)
    (fun hs _ => Sorted.isSorted_union TokenSet.order_before hs _) h
  rw [(mem_successorsWith.1 he).2]
  exact isSorted_followOfTail hg hs i

/-- A closure whose sets are all in ascending order has the terminals that are foreseen. -/
theorem IsClosure.isForeseen (hg : g.WellFormed) (h : g.IsClosure kernel table)
    (hsorted : SortedEntries table []) : g.IsForeseen kernel table where
  nodup := h.nodup
  mem_iff i := by
    rw [← h.exists_mem_iff]
    simp
  sorted e he := hsorted e (.inl he)
  foreseen_iff e he t := (h.follows_iff e.1 e.2 he t).trans (follows_iff_foreseen hg)

/-- **Every closure by increments ends without a bound, and leads to what is foreseen**, in whatever
order the entries are taken. -/
theorem Increments.isForeseen_run
    {absorb : ItemTable → Item × TokenSet → Option (ItemTable × ItemTable)}
    (h : g.Increments absorb) (hg : g.WellFormed)
    (hkernel : ∀ e ∈ kernel, Sorted.IsSorted TokenSet.before e.2)
    (htodo : ∀ e, e ∈ todo ↔ e ∈ kernel) :
    (∃ n, Worklist.Finishes absorb n todo []
      (Worklist.run absorb (g.closureBound kernel) todo [])) ∧
    g.IsForeseen kernel (Worklist.run absorb (g.closureBound kernel) todo []) := by
  -- one invariant for both: the loop without a bound goes where the bounded one does
  let P (table todo : ItemTable) : Prop := g.ClosureInvariant kernel table todo ∧
    SortedEntries table todo
  have hskip : ∀ table e rest, P table (e :: rest) → absorb table e = none → P table rest :=
    fun _ _ _ hP he => ⟨h.skip_invariant hP.1 he, hP.2.skip⟩
  have htake : ∀ table e rest table' more, P table (e :: rest) →
      absorb table e = some (table', more) →
        P table' (more ++ rest) ∧ table.weight < table'.weight := by
    rintro table e rest table' more ⟨hinv, hsorted⟩ he
    obtain ⟨hinv', hgrows⟩ := hinv.take hg (h.take he)
    exact ⟨⟨hinv', hsorted.take hg hinv.nodup (h.take he)⟩, hgrows⟩
  have hlimit : ∀ table todo, P table todo → table.weight ≤ g.closureBound kernel :=
    fun _ _ hP => hP.1.weight_le
  have hstart : P [] todo := by
    refine ⟨closureInvariant_start (fun e he => (hkernel e he).nodup TokenSet.order_before) htodo,
      ?_⟩
    rintro e (he | he)
    · cases he
    · exact hkernel e ((htodo e).1 he)
  have hbound : g.closureBound kernel ≤ ItemTable.weight [] + g.closureBound kernel :=
    Nat.le_add_left _ _
  obtain ⟨n, -, hfinishes⟩ :=
    Worklist.exists_finishes_run ItemTable.weight _ hskip htake hlimit hstart hbound
  obtain ⟨hinv, hsorted⟩ :=
    Worklist.run_induction ItemTable.weight _ hskip htake hlimit hstart hbound
  exact ⟨⟨n, hfinishes⟩, hinv.isClosure.isForeseen hg hsorted⟩

/-! ### Items from a stack

The same closure by another strategy: the latest entry comes first, and an item that comes up again
hands on what its rest begins with once more. -/

/-- Absorbs an entry that has been taken from a stack.  An item that is there hands on what its rest
begins with once more; what is handed on is put on the stack, so the last of it is taken first. -/
def pushItem (g : Grammar) (table : ItemTable) (entry : Item × TokenSet) :
    Option (ItemTable × ItemTable) :=
  let (i, lookaheads) := entry
  match table.lookup i with
  | none => some (table.put i lookaheads, (g.successorsWith i lookaheads).reverse)
  | some old =>
    let added := lookaheads.filter fun t => !old.contains t
    if added.isEmpty then none
    else some (table.put i (TokenSet.union old added), (g.successorsWith i added).reverse)

/-- The step absorbs increments. -/
theorem increments_pushItem (g : Grammar) : g.Increments g.pushItem := by
  have hreverse (l : ItemTable) : l.reverse ⊆ l ∧ l ⊆ l.reverse :=
    ⟨List.reverse_subset.2 (List.Subset.refl l), List.subset_reverse.2 (List.Subset.refl l)⟩
  exact .of_eq_match (fun i s => (g.successorsWith i s).reverse)
    (fun i s => (g.successorsWith i s).reverse) (fun _ _ _ => rfl) (fun _ _ => hreverse _)
    fun _ _ => ⟨(hreverse _).1, fun _ => (hreverse _).2⟩

end Grammar

/-! ### Closures of a definition

For the grammars of definitions both strategies lead to what is foreseen.  A small grammar shows
where this is more than what is given. -/

namespace GrammarDefinition

open Grammar

variable {d : GrammarDefinition} {g : Grammar} {kernel : ItemTable}

/-- **The closure with lookaheads of any list of items**, with sets in ascending order.  It ends
without a bound, and so does the one that takes the items from a stack, with the same sets.  It has
the items of the closure, each once, with the terminals that are foreseen, among them all that are
given.  Where each item is given some terminal, there are no others; this is so when those of the
list are and all nonterminals are productive. -/
theorem closureWithLookaheads_exact (hd : d.Reachable) (h : d.resolve = .ok g)
    (hkernel : ∀ e ∈ kernel, Sorted.IsSorted TokenSet.before e.2) :
    (∃ n, Worklist.Finishes g.absorbItem n kernel [] (g.closureWithLookaheads kernel)) ∧
    (∃ n table, Worklist.Finishes g.pushItem n kernel.reverse [] table ∧
      ∀ i, table.lookup i = (g.closureWithLookaheads kernel).lookup i) ∧
    g.IsForeseen kernel (g.closureWithLookaheads kernel) ∧
    (∀ i t, g.Given kernel i t → ∃ s, (i, s) ∈ g.closureWithLookaheads kernel ∧ t ∈ s) ∧
    ((∀ i ∈ g.closure (kernel.map Prod.fst), ∃ t, g.Given kernel i t) →
      ∀ e ∈ g.closureWithLookaheads kernel, ∀ t, t ∈ e.2 ↔ g.Given kernel e.1 t) ∧
    ((∀ i ∈ kernel.map Prod.fst, ∃ s, (i, s) ∈ kernel ∧ s ≠ []) →
      (∀ p ∈ g.productions, ∀ v, .nonterminal v ∈ p.rhs → g.Productive v) →
        ∀ i ∈ g.closure (kernel.map Prod.fst), ∃ t, g.Given kernel i t) := by
  have hg := d.wellFormed_of_resolve hd h
  obtain ⟨hends, hforeseen⟩ :=
    g.increments_absorbItem.isForeseen_run hg hkernel fun _ => Iff.rfl
  obtain ⟨⟨n, hpushes⟩, hpushed⟩ :=
    g.increments_pushItem.isForeseen_run hg hkernel fun _ => List.mem_reverse
  refine ⟨hends, ⟨n, _, hpushes, hpushed.lookup_eq hforeseen⟩, hforeseen, ?_, ?_,
    fun hitems hproductive _ => exists_given hitems hproductive⟩
  · intro i t hgiven
    obtain ⟨⟨_, s⟩, hs, rfl⟩ := List.mem_map.1 ((hforeseen.mem_iff i).2 hgiven.mem_closure)
    exact ⟨s, hs, (hforeseen.foreseen_iff _ hs t).2 (hgiven.foreseen hg)⟩
  · intro hall e he t
    exact (hforeseen.foreseen_iff e he t).trans (given_iff_foreseen hg hall).symm

/-- Lines, of which each can be empty. -/
def lines : GrammarDefinition :=
  (((GrammarDefinition.empty.declareTokens "word").2.addProductions "lines"
    "lines line | %empty").2.addProductions "line" "word | %empty").2

/-- What follows further lines follows also the first of them, where the end of the input, the mark
and no terminals at all are listed one after the other. -/
theorem closureWithLookaheads_exact_lines :
    ∃ g, lines.resolve = .ok g ∧ g.mark = 2 ∧
      ∀ t, g.Given [(⟨0, 0⟩, [0]), (⟨0, 0⟩, [2]), (⟨0, 0⟩, [])] ⟨1, 0⟩ t ↔
        t = 0 ∨ t = 1 ∨ t = 2 := by
  have hlines : (match lines.resolve with
      | .ok g => some (g.productions.toList, g.mark,
          g.closureWithLookaheads [(⟨0, 0⟩, [0]), (⟨0, 0⟩, [2]), (⟨0, 0⟩, [])])
      | .error _ => none) = some ([⟨0, [.nonterminal 0, .nonterminal 1], none⟩, ⟨0, [], none⟩,
        ⟨1, [.terminal 1], none⟩, ⟨1, [], none⟩], 2,
        [(⟨0, 0⟩, [0, 1, 2]), (⟨1, 0⟩, [0, 1, 2])]) := by
    decide +kernel
  have hd : lines.Reachable := .productions _ _ (.productions _ _ (.tokens _ .empty))
  split at hlines
  · next g hresolve =>
    simp only [Option.some.injEq, Prod.mk.injEq] at hlines
    obtain ⟨hproductions, hmark, hclosure⟩ := hlines
    have hmem : ∀ p ∈ g.productions.toList, g.Derives [.nonterminal p.lhs] p.rhs :=
      fun p hp => derives_of_mem (Array.mem_toList_iff.1 hp)
    rw [hproductions] at hmem
    have hproductive : ∀ p ∈ g.productions, ∀ v, .nonterminal v ∈ p.rhs → g.Productive v := by
      intro p hp v hv
      rw [← Array.mem_toList_iff, hproductions] at hp
      have hv : v = 0 ∨ v = 1 := by
        simp only [List.mem_cons, List.not_mem_nil, or_false] at hp
        rcases hp with rfl | rfl | rfl | rfl
        · simpa using hv
        all_goals simp at hv
      rcases hv with rfl | rfl
      · exact ⟨[], hmem ⟨0, [], none⟩ (by simp)⟩
      · exact ⟨[], hmem ⟨1, [], none⟩ (by simp)⟩
    have hsorted : ∀ e ∈ ([(⟨0, 0⟩, [0]), (⟨0, 0⟩, [2]), (⟨0, 0⟩, [])] : ItemTable),
        Sorted.IsSorted TokenSet.before e.2 := by simp [Sorted.IsSorted]
    obtain ⟨-, -, -, -, hgiven, hall⟩ := closureWithLookaheads_exact hd hresolve hsorted
    refine ⟨g, hresolve, hmark, fun t => ?_⟩
    rw [hclosure] at hgiven
    have hitems := hgiven (hall (by simp) hproductive) (⟨1, 0⟩, [0, 1, 2]) (by simp) t
    rw [← hitems]
    simp
  · cases hlines

/-- A beginning that is followed by what never ends: each `u` has another one in front. -/
def dangling : GrammarDefinition :=
  (((((GrammarDefinition.empty.declareTokens "a x y d").2.addProductions "s"
    "a | t u").2.addProductions "t" "x v y").2.addProductions "v" "%empty").2.addProductions "u"
      "u d").2

/-- An item without terminals is given none to hand on, and still what begins where it goes on has
what the rest of the item begins with. -/
theorem mem_closureWithLookaheads_dangling :
    ∃ g, dangling.resolve = .ok g ∧ g.generate.lookaheads.state 2 = [(⟨2, 1⟩, [])] ∧
      (⟨3, 0⟩, [3]) ∈ g.closureWithLookaheads [(⟨2, 1⟩, [])] ∧
      ∀ t, ¬ g.Given [(⟨2, 1⟩, [])] ⟨3, 0⟩ t := by
  have hdangling : (match dangling.resolve with
      | .ok g => some (g.generate.lookaheads.state 2, g.closureWithLookaheads [(⟨2, 1⟩, [])])
      | .error _ => none) = some ([(⟨2, 1⟩, [])], [(⟨2, 1⟩, []), (⟨3, 0⟩, [3])]) := by
    decide +kernel
  have hnever : ∀ {g : Grammar} {i : Item} {t : TokenId}, ¬ g.Given [(⟨2, 1⟩, [])] i t := by
    intro g i t h
    induction h with
    | kernel hi ht =>
      obtain ⟨-, rfl⟩ := Prod.mk.inj (List.mem_singleton.1 hi)
      cases ht
    | closure _ _ _ ih => exact ih
  split at hdangling
  · next g hresolve =>
    simp only [Option.some.injEq, Prod.mk.injEq] at hdangling
    obtain ⟨hstate, hclosure⟩ := hdangling
    exact ⟨g, hresolve, hstate, by simp [hclosure], fun t => hnever⟩
  · cases hdangling

end GrammarDefinition

end FrontEnd
