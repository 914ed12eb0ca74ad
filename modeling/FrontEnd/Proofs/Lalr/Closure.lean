import FrontEnd.Lalr.Item
import FrontEnd.Proofs.Grammar.First
import Mathlib.Data.Finset.Image

/-!
# Closures

The closure of some items holds what can be reached from them, and the closure with lookaheads gives
each item exactly the terminals that arrive there: those that the rest of an item begins with, and
those that follow an item whose rest can be empty.

## Main Definitions

* `Grammar.Follows` — a terminal arrives at an item of a closure
* `ItemTable.Pending`, `ItemTable.Covers` — what a table and the items left hold together
* `Grammar.ClosureInvariant` — what each step of the closure with lookaheads keeps
* `Grammar.Increments` — steps that absorb what an entry brings, and hand it on

## Main Statements

* `Grammar.mem_closure_iff` — the items of a closure
* `Grammar.ClosureInvariant.take` — what a step of a closure by increments keeps
* `Grammar.Increments.isClosure_run` — what follows its items, in whatever order they are taken
* `Grammar.closureWithLookaheads_spec` — the items of a closure with the terminals that follow them

## Design Notes

The loop hands on increments only.  So the invariant does not speak of the sets in the table alone,
but of what the table and the entries that wait hold together: behind an entry that waits, nothing
has to be there yet.
-/

namespace FrontEnd

namespace Grammar

variable {g : Grammar}

/-! ### Items

Which productions there are, and what the rest of an item begins with. -/

/-- The right-hand side of a production, by its number. -/
theorem rhsOf_of_getElem? {p : Nat} {production : Production}
    (h : g.productions[p]? = some production) : g.rhsOf p = production.rhs := by
  rw [rhsOf, h]

/-- The productions of a nonterminal are those with this left-hand side. -/
theorem mem_productionsOf {v p : Nat} :
    p ∈ g.productionsOf v ↔
      ∃ production, g.productions[p]? = some production ∧ production.lhs = v := by
  unfold productionsOf
  simp only [List.mem_map, List.mem_filter, beq_iff_eq, Prod.exists, exists_eq_right]
  apply exists_congr
  intro production
  apply and_congr_left
  intro _
  rw [List.mem_zipIdx_iff_getElem?, Array.getElem?_toList]

/-- The successors of an item are the starts of the productions of the next symbol. -/
theorem mem_successors {i j : Item} :
    j ∈ g.successors i ↔ ∃ p production, g.productions[p]? = some production ∧
      g.nextSymbol? i = some (.nonterminal production.lhs) ∧ j = Item.start p := by
  unfold successors
  constructor
  · intro h
    split at h
    · next v hv =>
      obtain ⟨p, hp, rfl⟩ := List.mem_map.1 h
      obtain ⟨production, hproduction, rfl⟩ := mem_productionsOf.1 hp
      exact ⟨p, production, hproduction, hv, rfl⟩
    · cases h
  · rintro ⟨p, production, hproduction, hnext, rfl⟩
    rw [hnext]
    exact List.mem_map_of_mem (mem_productionsOf.2 ⟨production, hproduction, rfl⟩)

/-- A terminal of a right-hand side is used by the grammar. -/
theorem terminal_mem_rhsOf {p : Nat} {t : TokenId} (h : .terminal t ∈ g.rhsOf p) :
    t ∈ usedTerminals g.productions.toList := by
  unfold rhsOf at h
  split at h
  · next production hp =>
    exact mem_usedTerminals (Array.mem_toList_iff.2 (Array.mem_of_getElem? hp)) h
  · simp at h

theorem firstOf_tail_subset (h : g.WellFormed) (i : Item) :
    (g.firstOf (g.tail i)).first ⊆ usedTerminals g.productions.toList :=
  firstOf_subset h fun _ ht => terminal_mem_rhsOf (List.mem_of_mem_drop ht)

/-! ### Items of a closure

A closure is a search from its kernel along the items that begin where another one goes on.  Apart
from the kernel there are only beginnings of productions, so the search ends. -/

section Items

variable {kernel : List Item} {i j : Item}

/-- An item that is reached is in the kernel, or begins behind another one that is reached. -/
theorem reachable_cases (h : Worklist.Reachable g.successors kernel i) :
    i ∈ kernel ∨ ∃ j, Worklist.Reachable g.successors kernel j ∧ i ∈ g.successors j := by
  obtain ⟨root, hroot, hpath⟩ := h
  cases hpath with
  | refl => exact .inl hroot
  | tail hpath hstep => exact .inr ⟨_, ⟨root, hroot, hpath⟩, hstep⟩

/-- The items that a closure can have: those given, and the starts of all productions. -/
def closureNodes (g : Grammar) (kernel : List Item) : Finset Item :=
  kernel.toFinset ∪ (Finset.range g.productions.size).image Item.start

/-- There are no more items to be reached than kernel items and productions. -/
theorem card_closureNodes_le (g : Grammar) (kernel : List Item) :
    (g.closureNodes kernel).card ≤ kernel.length + g.productions.size := by
  refine (Finset.card_union_le _ _).trans (Nat.add_le_add (List.toFinset_card_le _) ?_)
  exact Finset.card_image_le.trans (by rw [Finset.card_range])

/-- What is reached is among them. -/
theorem mem_closureNodes (h : Worklist.Reachable g.successors kernel i) :
    i ∈ g.closureNodes kernel := by
  unfold closureNodes
  rcases reachable_cases h with hi | ⟨j, -, hj⟩
  · exact Finset.mem_union_left _ (List.mem_toFinset.2 hi)
  · obtain ⟨p, production, hp, -, rfl⟩ := mem_successors.1 hj
    have hlt : p < g.productions.size := (Array.getElem?_eq_some_iff.1 hp).choose
    exact Finset.mem_union_right _ (Finset.mem_image_of_mem _ (Finset.mem_range.2 hlt))

/-- **The items of a closure** are those that can be reached from the given ones. -/
theorem mem_closure_iff : i ∈ g.closure kernel ↔ Worklist.Reachable g.successors kernel i :=
  Worklist.mem_reach_iff (g.closureNodes kernel) (fun _ => mem_closureNodes)
    (card_closureNodes_le g kernel)

/-- The kernel belongs to its closure. -/
theorem mem_closure_of_mem (h : i ∈ kernel) : i ∈ g.closure kernel := mem_closure_iff.2 (.root h)

/-- What begins where an item of the closure goes on belongs to the closure. -/
theorem mem_closure_of_successor (h : i ∈ g.closure kernel) (hj : j ∈ g.successors i) :
    j ∈ g.closure kernel := mem_closure_iff.2 ((mem_closure_iff.1 h).successor hj)

/-- An item of a closure was given, or it begins where another item of the closure goes on. -/
theorem closure_cases (h : i ∈ g.closure kernel) :
    i ∈ kernel ∨ ∃ j ∈ g.closure kernel, i ∈ g.successors j := by
  rcases reachable_cases (mem_closure_iff.1 h) with hi | ⟨j, hj, hi⟩
  · exact .inl hi
  · exact .inr ⟨j, mem_closure_iff.2 hj, hi⟩

end Items

/-! ### Terminals that follow

A terminal arrives at an item from the one in front of which it begins: it begins the rest of that
item, or it arrives there and the rest can be empty. -/

/-- A terminal follows an item of a closure: it is given for the item, or an item that the closure
has goes on where this one begins, and the rest of it begins with the terminal, or can be empty and
the terminal follows. -/
inductive Follows (g : Grammar) (kernel : ItemTable) : Item → TokenId → Prop
  | kernel {i : Item} {s : TokenSet} {t : TokenId} : (i, s) ∈ kernel → t ∈ s → Follows g kernel i t
  | first {i j : Item} {t : TokenId} : i ∈ g.closure (kernel.map Prod.fst) → j ∈ g.successors i →
    t ∈ (g.firstOf (g.tail i)).first → Follows g kernel j t
  | carry {i j : Item} {t : TokenId} : Follows g kernel i t → j ∈ g.successors i →
    (g.firstOf (g.tail i)).nullable = true → Follows g kernel j t

/-- Terminals arrive at items of the closure only. -/
theorem Follows.mem_closure {kernel : ItemTable} {i : Item} {t : TokenId}
    (h : g.Follows kernel i t) : i ∈ g.closure (kernel.map Prod.fst) := by
  induction h with
  | kernel hi _ => exact mem_closure_of_mem (List.mem_map_of_mem hi)
  | first hi hj _ => exact mem_closure_of_successor hi hj
  | carry _ hj _ ih => exact mem_closure_of_successor ih hj

/-- What is handed on is what the rest begins with, and the whole set when the rest can be empty. -/
theorem mem_followOfTail {i : Item} {s : TokenSet} {t : TokenId} :
    t ∈ g.followOfTail i s ↔ t ∈ (g.firstOf (g.tail i)).first ∨
      (g.firstOf (g.tail i)).nullable = true ∧ t ∈ s := by
  unfold followOfTail
  dsimp only
  split
  · next h => simp [TokenSet.union, Sorted.mem_union, h, or_comm]
  · next h => simp [h]

/-- No terminal is handed on twice. -/
theorem nodup_followOfTail (h : g.WellFormed) {i : Item} {s : TokenSet} (hs : s.Nodup) :
    (g.followOfTail i s).Nodup := by
  unfold followOfTail
  dsimp only
  split
  · exact Sorted.nodup_union hs _
  · exact nodup_firstOf h _

/-- All items that begin behind an item get the same set. -/
theorem mem_successorsWith {i : Item} {s : TokenSet} {e : Item × TokenSet} :
    e ∈ g.successorsWith i s ↔ e.1 ∈ g.successors i ∧ e.2 = g.followOfTail i s := by
  unfold successorsWith
  obtain ⟨j, lookaheads⟩ := e
  simp [eq_comm]

end Grammar

/-! ### Association lists

Facts about looking up entries of a list. -/

section Lookup

variable {α β : Type} [DecidableEq α]

/-- The first entry decides when it has the key. -/
theorem lookup_cons_eq_ite (a b : α) (x : β) (l : List (α × β)) :
    ((b, x) :: l).lookup a = if a = b then some x else l.lookup a := by
  rw [List.lookup_cons]
  by_cases h : a = b
  · rw [if_pos h, beq_iff_eq.2 h]
  · rw [if_neg h, beq_eq_false_iff_ne.2 h]

/-- Where no key occurs twice, what is found for a key is what the list has for it. -/
theorem lookup_eq_some_iff_mem {l : List (α × β)} (hnodup : (l.map Prod.fst).Nodup) {a : α}
    {x : β} : l.lookup a = some x ↔ (a, x) ∈ l := by
  induction l with
  | nil => simp
  | cons e rest ih =>
    obtain ⟨b, y⟩ := e
    obtain ⟨hb, hrest⟩ := List.nodup_cons.1 hnodup
    rw [lookup_cons_eq_ite, List.mem_cons, Prod.mk.injEq]
    by_cases h : a = b
    · subst h
      have hnot : (a, x) ∉ rest := fun hmem => hb (List.mem_map.2 ⟨_, hmem, rfl⟩)
      simp [hnot, eq_comm]
    · rw [if_neg h, ih hrest]
      simp [h]

end Lookup

/-! ### Tables

A table has one entry for each item that has come up.  Its weight is the number of all terminals in
it, which grows with each increment. -/

namespace ItemTable

variable {table : ItemTable} {i j : Item} {s old : TokenSet}

/-- The entry of an item is replaced, and the others stay. -/
theorem lookup_put : (table.put i s).lookup j = if j = i then some s else table.lookup j := by
  induction table with
  | nil =>
    show ([(i, s)] : ItemTable).lookup j = _
    rw [lookup_cons_eq_ite]
  | cons e rest ih =>
    obtain ⟨k, t⟩ := e
    unfold put
    by_cases hk : k = i
    · subst hk
      rw [if_pos rfl, lookup_cons_eq_ite, lookup_cons_eq_ite]
      by_cases h : j = k
      · rw [if_pos h, if_pos h]
      · rw [if_neg h, if_neg h, if_neg h]
    · rw [if_neg hk, lookup_cons_eq_ite, lookup_cons_eq_ite, ih]
      by_cases h : j = k
      · subst h
        rw [if_pos rfl, if_neg hk, if_pos rfl]
      · rw [if_neg h, if_neg h]

/-- A new entry stands at the end. -/
theorem put_eq_append (h : table.lookup i = none) : table.put i s = table ++ [(i, s)] := by
  induction table with
  | nil => rfl
  | cons e rest ih =>
    obtain ⟨k, t⟩ := e
    rw [lookup_cons_eq_ite] at h
    unfold put
    by_cases hk : k = i
    · simp [hk] at h
    · rw [if_neg hk, ih (by simpa [Ne.symm hk] using h), List.cons_append]

/-- How many items and terminals a table has. -/
def weight (table : ItemTable) : Nat := (table.map fun e => e.2.length + 1).sum

/-- The weight changes by what the entry changes. -/
theorem weight_put (h : table.lookup i = some old) :
    (table.put i s).weight + old.length = table.weight + s.length := by
  induction table with
  | nil => cases h
  | cons e rest ih =>
    obtain ⟨k, t⟩ := e
    rw [lookup_cons_eq_ite] at h
    unfold put
    by_cases hk : k = i
    · obtain rfl : t = old := by simpa [hk] using h
      rw [if_pos hk]
      simp only [weight, List.map_cons, List.sum_cons]
      omega
    · have hrest := ih (by simpa [Ne.symm hk] using h)
      rw [if_neg hk]
      simp only [weight, List.map_cons, List.sum_cons] at hrest ⊢
      omega

/-- Replacing an entry keeps the items in order. -/
theorem map_fst_put (h : table.lookup i = some old) :
    (table.put i s).map Prod.fst = table.map Prod.fst := by
  induction table with
  | nil => cases h
  | cons e rest ih =>
    obtain ⟨k, t⟩ := e
    rw [lookup_cons_eq_ite] at h
    unfold put
    by_cases hk : k = i
    · rw [if_pos hk, List.map_cons, List.map_cons]
    · rw [if_neg hk, List.map_cons, List.map_cons, ih (by simpa [Ne.symm hk] using h)]

/-- What a table holds when an entry has been put in was there before, or it is this entry. -/
theorem mem_of_mem_put {e : Item × TokenSet} (h : e ∈ table.put i s) :
    e ∈ table ∨ e = (i, s) := by
  induction table with
  | nil => exact .inr (List.mem_singleton.1 h)
  | cons e' rest ih =>
    obtain ⟨k, t⟩ := e'
    unfold put at h
    by_cases hk : k = i
    · rw [if_pos hk] at h
      rcases List.mem_cons.1 h with rfl | h
      · exact .inr (by rw [hk])
      · exact .inl (List.mem_cons_of_mem _ h)
    · rw [if_neg hk] at h
      rcases List.mem_cons.1 h with rfl | h
      · exact .inl List.mem_cons_self
      · exact (ih h).imp_left (List.mem_cons_of_mem _)

/-- Items that have come up have an entry. -/
theorem isSome_lookup_iff : (table.lookup i).isSome = true ↔ i ∈ table.map Prod.fst := by
  simp

/-- A set that the table has for an item, or that is left for it. -/
def Pending (table todo : ItemTable) (i : Item) (s : TokenSet) : Prop :=
  table.lookup i = some s ∨ (i, s) ∈ todo

/-- The item is in the table or left, and so is each of the terminals for it. -/
def Covers (table todo : ItemTable) (e : Item × TokenSet) : Prop :=
  (∃ s, Pending table todo e.1 s) ∧ ∀ t ∈ e.2, ∃ s, Pending table todo e.1 s ∧ t ∈ s

/-- What an entry brings is covered when it waits for the item. -/
theorem Covers.of_pending {todo : ItemTable} {e : Item × TokenSet} (h : Pending table todo e.1 s)
    (hs : e.2 ⊆ s) : Covers table todo e := ⟨⟨s, h⟩, fun _ ht => ⟨s, h, hs ht⟩⟩

/-- What is covered stays covered when each set that is there or left does. -/
theorem Covers.mono {todo table' todo' : ItemTable} {e : Item × TokenSet}
    (h : Covers table todo e)
    (hmono : ∀ i s, Pending table todo i s → Covers table' todo' (i, s)) :
    Covers table' todo' e := by
  obtain ⟨⟨s, hs⟩, hall⟩ := h
  refine ⟨(hmono _ s hs).1, ?_⟩
  intro t ht
  obtain ⟨s', hs', hts⟩ := hall t ht
  exact (hmono _ s' hs').2 t hts

/-- What is left and new is covered when it is entered. -/
theorem covers_put_new {rest : ItemTable} (more : ItemTable) (hi : table.lookup i = none)
    {t : TokenSet} (h : Pending table ((i, s) :: rest) j t) :
    Covers (table.put i s) (more ++ rest) (j, t) := by
  refine .of_pending (s := t) ?_ (List.Subset.refl t)
  unfold Pending
  rw [lookup_put]
  rcases h with h | h
  · have hne : j ≠ i := fun heq => by simp [← heq, h] at hi
    exact .inl (by rw [if_neg hne, h])
  · rcases List.mem_cons.1 h with heq | h
    · obtain ⟨rfl, rfl⟩ := Prod.mk.inj heq
      exact .inl (if_pos rfl)
    · exact .inr (List.mem_append_right _ h)

/-- What is left is covered when the terminals that its item does not have are added. -/
theorem covers_put_union {rest : ItemTable} (more : ItemTable) {added : TokenSet}
    (hi : table.lookup i = some old) (hadded : added = s.filter fun t => !old.contains t)
    {t : TokenSet} (h : Pending table ((i, s) :: rest) j t) :
    Covers (table.put i (TokenSet.union old added)) (more ++ rest) (j, t) := by
  have hunion : ∀ u, u ∈ TokenSet.union old added ↔ u ∈ old ∨ u ∈ added := fun u =>
    Sorted.mem_union _
  by_cases hji : j = i
  · subst hji
    have hnew : Pending (table.put j (TokenSet.union old added)) (more ++ rest) j
        (TokenSet.union old added) := .inl (by rw [lookup_put, if_pos rfl])
    rcases h with h | h
    · obtain rfl := Option.some.inj (hi.symm.trans h)
      exact .of_pending hnew fun u hu => (hunion u).2 (.inl hu)
    · rcases List.mem_cons.1 h with heq | h
      · obtain ⟨-, rfl⟩ := Prod.mk.inj heq
        refine .of_pending hnew fun u hu => (hunion u).2 ?_
        by_cases hu' : u ∈ old
        · exact .inl hu'
        · exact .inr (by simpa [hadded, hu'] using hu)
      · exact .of_pending (.inr (List.mem_append_right _ h)) (List.Subset.refl t)
  · refine .of_pending (s := t) ?_ (List.Subset.refl t)
    rcases h with h | h
    · exact .inl (by rw [lookup_put, if_neg hji, h])
    · rcases List.mem_cons.1 h with heq | h
      · exact absurd (Prod.mk.inj heq).1 hji
      · exact .inr (List.mem_append_right _ h)

end ItemTable

namespace Grammar

open ItemTable

variable {g : Grammar}

/-! ### The closure with lookaheads

A step absorbs what an entry brings and hands on what is new.  That is all that is asked of it, so
every strategy that does this has the same result.  The weight of the table is bounded by the
terminals that can occur, and so is the number of steps that add something. -/

section Lookaheads

variable {kernel table todo : ItemTable}

/-- The terminals that a closure can give to its items. -/
def closureTerminals (g : Grammar) (kernel : ItemTable) : List TokenId :=
  usedTerminals g.productions.toList ++ kernel.flatMap Prod.snd

theorem length_closureTerminals_le (g : Grammar) (kernel : ItemTable) :
    (g.closureTerminals kernel).length ≤
      totalLength g.productions.toList + (kernel.flatMap Prod.snd).length := by
  unfold closureTerminals
  rw [List.length_append]
  exact Nat.add_le_add_right (length_usedTerminals_le _) _

/-- An entry of a closure: its item can be reached, and its terminals follow the item. -/
structure ClosureEntry (g : Grammar) (kernel : ItemTable) (e : Item × TokenSet) : Prop where
  mem_closure : e.1 ∈ g.closure (kernel.map Prod.fst)
  nodup : e.2.Nodup
  subset : e.2 ⊆ g.closureTerminals kernel
  follows : ∀ t ∈ e.2, g.Follows kernel e.1 t

/-- What each step of the closure with lookaheads keeps.  What an item hands on is covered as soon
as the item is in the table. -/
structure ClosureInvariant (g : Grammar) (kernel table todo : ItemTable) : Prop where
  nodup : (table.map Prod.fst).Nodup
  entry : ∀ e, e ∈ table ∨ e ∈ todo → g.ClosureEntry kernel e
  kernel : ∀ e ∈ kernel, Covers table todo e
  spread : ∀ i s, table.lookup i = some s → ∀ e ∈ g.successorsWith i s, Covers table todo e

/-- What an entry hands on are entries. -/
theorem ClosureEntry.successorsWith (h : g.WellFormed) {i : Item} {s : TokenSet}
    (hi : g.ClosureEntry kernel (i, s)) {e : Item × TokenSet} (he : e ∈ g.successorsWith i s) :
    g.ClosureEntry kernel e := by
  obtain ⟨hmem, hs⟩ := mem_successorsWith.1 he
  refine ⟨mem_closure_of_successor hi.mem_closure hmem, ?_, ?_, ?_⟩
  · rw [hs]
    exact nodup_followOfTail h hi.nodup
  · intro t ht
    rcases mem_followOfTail.1 (hs ▸ ht) with ht | ⟨-, ht⟩
    · exact List.mem_append_left _ (firstOf_tail_subset h i ht)
    · exact hi.subset ht
  · intro t ht
    rcases mem_followOfTail.1 (hs ▸ ht) with ht | ⟨hnull, ht⟩
    · exact .first hi.mem_closure hmem ht
    · exact .carry (hi.follows t ht) hmem hnull

/-- A part of an entry holds terminals that arrive, too. -/
theorem ClosureEntry.filter {i : Item} {s : TokenSet} (h : g.ClosureEntry kernel (i, s))
    (p : TokenId → Bool) : g.ClosureEntry kernel (i, s.filter p) := by
  have hsub : s.filter p ⊆ s := List.filter_sublist.subset
  exact ⟨h.mem_closure, h.nodup.filter p, fun t ht => h.subset (hsub ht),
    fun t ht => h.follows t (hsub ht)⟩

theorem ClosureEntry.union {i : Item} {s u : TokenSet} (hs : g.ClosureEntry kernel (i, s))
    (hu : g.ClosureEntry kernel (i, u)) : g.ClosureEntry kernel (i, TokenSet.union s u) := by
  have hunion : ∀ t, t ∈ TokenSet.union s u ↔ t ∈ s ∨ t ∈ u := fun t => Sorted.mem_union _
  refine ⟨hs.mem_closure, Sorted.nodup_union hs.nodup _, ?_, ?_⟩
  · exact fun t ht => ((hunion t).1 ht).elim (fun h => hs.subset h) fun h => hu.subset h
  · exact fun t ht => ((hunion t).1 ht).elim (hs.follows t) (hu.follows t)

/-- What absorbing an entry does: a new item is entered and hands on all of its terminals, or an
item that is there gets further ones and hands these on, at least when its rest can be empty. -/
inductive Absorbed (g : Grammar) (table : ItemTable) (i : Item) (s : TokenSet) :
    ItemTable → ItemTable → Prop
  | enter {more : ItemTable} : table.lookup i = none →
    more ⊆ g.successorsWith i s → g.successorsWith i s ⊆ more →
      Absorbed g table i s (table.put i s) more
  | extend {old added : TokenSet} {more : ItemTable} : table.lookup i = some old →
    ¬ s ⊆ old → (added = s.filter fun t => !old.contains t) → more ⊆ g.successorsWith i added →
    ((g.firstOf (g.tail i)).nullable = true → g.successorsWith i added ⊆ more) →
      Absorbed g table i s (table.put i (TokenSet.union old added)) more

/-- What holds of all entries, and goes along with what an entry hands on and with parts and unions
of its terminals, holds of all entries behind a step. -/
theorem Absorbed.forall_entries {P : Item × TokenSet → Prop} {i : Item} {s : TokenSet}
    {table' more rest : ItemTable} (h : g.Absorbed table i s table' more)
    (hnodup : (table.map Prod.fst).Nodup)
    (hhand : ∀ {s e}, P (i, s) → e ∈ g.successorsWith i s → P e)
    (hpart : ∀ {s} (p : TokenId → Bool), P (i, s) → P (i, s.filter p))
    (hunion : ∀ {s u}, P (i, s) → P (i, u) → P (i, TokenSet.union s u))
    (hP : ∀ e, e ∈ table ∨ e ∈ (i, s) :: rest → P e) :
    ∀ e, e ∈ table' ∨ e ∈ more ++ rest → P e := by
  have hs : P (i, s) := hP (i, s) (.inr List.mem_cons_self)
  cases h with
  | enter _ hmore _ =>
    rintro e (he | he)
    · rcases mem_of_mem_put he with he | rfl
      · exact hP e (.inl he)
      · exact hs
    · rcases List.mem_append.1 he with he | he
      · exact hhand hs (hmore he)
      · exact hP e (.inr (List.mem_cons_of_mem _ he))
  | @extend old added _ hi _ hadded hmore _ =>
    have hold : P (i, old) := hP (i, old) (.inl ((lookup_eq_some_iff_mem hnodup).1 hi))
    have hnew : P (i, added) := hadded ▸ hpart _ hs
    rintro e (he | he)
    · rcases mem_of_mem_put he with he | rfl
      · exact hP e (.inl he)
      · exact hunion hold hnew
    · rcases List.mem_append.1 he with he | he
      · exact hhand hnew (hmore he)
      · exact hP e (.inr (List.mem_cons_of_mem _ he))

/-- A closure by increments: what an entry brings is absorbed, unless the table has it all. -/
structure Increments (g : Grammar)
    (absorb : ItemTable → Item × TokenSet → Option (ItemTable × ItemTable)) : Prop where
  skip : ∀ {table i s}, absorb table (i, s) = none → ∃ old, table.lookup i = some old ∧ s ⊆ old
  take : ∀ {table i s table' more}, absorb table (i, s) = some (table', more) →
    g.Absorbed table i s table' more

theorem isEmpty_filter_not_contains_iff {s old : TokenSet} :
    (s.filter fun t => !old.contains t).isEmpty = true ↔ s ⊆ old := by
  rw [List.isEmpty_iff, List.filter_eq_nil_iff]
  exact forall₂_congr fun t _ => by simp

/-- It does not matter how what is handed on is arranged, nor whether an item whose rest cannot be
empty hands on once more what the rest begins with. -/
theorem Increments.of_eq_match
    {absorb : ItemTable → Item × TokenSet → Option (ItemTable × ItemTable)}
    (first again : Item → TokenSet → ItemTable)
    (habsorb : ∀ table i s, absorb table (i, s) =
      match table.lookup i with
      | none => some (table.put i s, first i s)
      | some old =>
        let added := s.filter fun t => !old.contains t
        if added.isEmpty then none
        else some (table.put i (TokenSet.union old added), again i added))
    (hfirst : ∀ i s, first i s ⊆ g.successorsWith i s ∧ g.successorsWith i s ⊆ first i s)
    (hagain : ∀ i s, again i s ⊆ g.successorsWith i s ∧
      ((g.firstOf (g.tail i)).nullable = true → g.successorsWith i s ⊆ again i s)) :
    g.Increments absorb where
  skip {table i s} h := by
    rw [habsorb] at h
    dsimp only at h
    split at h
    · cases h
    · next old hold =>
      split at h
      · next hempty => exact ⟨old, hold, isEmpty_filter_not_contains_iff.1 hempty⟩
      · cases h
  take {table i s table' more} h := by
    rw [habsorb] at h
    dsimp only at h
    split at h
    · next hi =>
      obtain ⟨rfl, rfl⟩ := Prod.mk.inj (Option.some.inj h)
      exact .enter hi (hfirst i s).1 (hfirst i s).2
    · next old hi =>
      split at h
      · cases h
      · next hne =>
        obtain ⟨rfl, rfl⟩ := Prod.mk.inj (Option.some.inj h)
        exact .extend hi (mt isEmpty_filter_not_contains_iff.2 hne) rfl (hagain i _).1
          (hagain i _).2

/-- The step of the construction absorbs increments. -/
theorem increments_absorbItem (g : Grammar) : g.Increments g.absorbItem := by
  refine .of_eq_match g.successorsWith
    (fun i s => if (g.firstOf (g.tail i)).nullable then g.successorsWith i s else [])
    (fun _ _ _ => rfl) (fun i s => ?_) fun i s => ?_
  · exact ⟨List.Subset.refl _, List.Subset.refl _⟩
  · split
    · exact ⟨List.Subset.refl _, fun _ => List.Subset.refl _⟩
    · next hnull => exact ⟨List.nil_subset _, fun h => absurd h hnull⟩

/-- What the table has and more is left out. -/
theorem ClosureInvariant.skip {i : Item} {s old : TokenSet} {rest : ItemTable}
    (h : g.ClosureInvariant kernel table ((i, s) :: rest)) (hold : table.lookup i = some old)
    (hsub : s ⊆ old) : g.ClosureInvariant kernel table rest := by
  have hmono : ∀ j t, Pending table ((i, s) :: rest) j t → Covers table rest (j, t) := by
    intro j t hj
    rcases hj with hj | hj
    · exact .of_pending (.inl hj) (List.Subset.refl t)
    · rcases List.mem_cons.1 hj with heq | hj
      · obtain ⟨rfl, rfl⟩ := Prod.mk.inj heq
        exact .of_pending (.inl hold) hsub
      · exact .of_pending (.inr hj) (List.Subset.refl t)
  refine ⟨h.nodup, ?_, fun e he => (h.kernel e he).mono hmono,
    fun i s hs e he => (h.spread i s hs e he).mono hmono⟩
  rintro e (he | he)
  · exact h.entry e (.inl he)
  · exact h.entry e (.inr (List.mem_cons_of_mem _ he))

/-- The entries behind a step are entries of the closure. -/
theorem ClosureInvariant.entry_absorbed (hg : g.WellFormed) {i : Item} {s : TokenSet}
    {rest table' more : ItemTable} (h : g.ClosureInvariant kernel table ((i, s) :: rest))
    (habsorbed : g.Absorbed table i s table' more) :
    ∀ e, e ∈ table' ∨ e ∈ more ++ rest → g.ClosureEntry kernel e :=
  habsorbed.forall_entries h.nodup (fun hs he => hs.successorsWith hg he) (fun p hs => hs.filter p)
    (fun hs hu => hs.union hu) h.entry

/-- A new item is entered, and hands on all of its terminals. -/
theorem ClosureInvariant.enter {i : Item} {s : TokenSet} {rest more : ItemTable}
    (h : g.ClosureInvariant kernel table ((i, s) :: rest)) (hi : table.lookup i = none)
    (hall : g.successorsWith i s ⊆ more)
    (hentry : ∀ e, e ∈ table.put i s ∨ e ∈ more ++ rest → g.ClosureEntry kernel e) :
    g.ClosureInvariant kernel (table.put i s) (more ++ rest) := by
  have hmono : ∀ j t, Pending table ((i, s) :: rest) j t →
      Covers (table.put i s) (more ++ rest) (j, t) := fun _ _ hj => covers_put_new _ hi hj
  refine ⟨?_, hentry, fun e he => (h.kernel e he).mono hmono, ?_⟩
  · rw [put_eq_append hi, List.map_append]
    refine List.nodup_append.2 ⟨h.nodup, List.nodup_singleton i, ?_⟩
    rintro j hj k hk rfl
    obtain rfl := List.mem_singleton.1 hk
    rw [← isSome_lookup_iff, hi] at hj
    cases hj
  · intro j t hj e he
    rw [lookup_put] at hj
    split at hj
    · next heq =>
      subst heq
      obtain rfl := Option.some.inj hj
      exact .of_pending (.inr (List.mem_append_left _ (hall he))) (List.Subset.refl _)
    · exact (h.spread j t hj e he).mono hmono

/-- An item that is there gets further terminals, and hands these on when its rest can be empty. -/
theorem ClosureInvariant.extend {i : Item} {s old added : TokenSet} {rest more : ItemTable}
    (h : g.ClosureInvariant kernel table ((i, s) :: rest)) (hi : table.lookup i = some old)
    (hadded : added = s.filter fun t => !old.contains t)
    (hall : (g.firstOf (g.tail i)).nullable = true → g.successorsWith i added ⊆ more)
    (hentry : ∀ e, e ∈ table.put i (TokenSet.union old added) ∨ e ∈ more ++ rest →
      g.ClosureEntry kernel e) :
    g.ClosureInvariant kernel (table.put i (TokenSet.union old added)) (more ++ rest) := by
  have hunion : ∀ t, t ∈ TokenSet.union old added ↔ t ∈ old ∨ t ∈ added := fun t =>
    Sorted.mem_union _
  have hmono : ∀ j t, Pending table ((i, s) :: rest) j t →
      Covers (table.put i (TokenSet.union old added)) (more ++ rest) (j, t) :=
    fun _ _ hj => covers_put_union more hi hadded hj
  refine ⟨?_, hentry, fun e he => (h.kernel e he).mono hmono, ?_⟩
  · rw [map_fst_put hi]
    exact h.nodup
  · intro j t hj e he
    rw [lookup_put] at hj
    split at hj
    · next heq =>
      subst heq
      obtain rfl := Option.some.inj hj
      obtain ⟨hmem, hs⟩ := mem_successorsWith.1 he
      -- what the item had handed on before is covered, and what is added has just come up
      obtain ⟨hitem, hterminals⟩ :=
        (h.spread j old hi (e.1, g.followOfTail j old) (mem_successorsWith.2 ⟨hmem, rfl⟩)).mono
          hmono
      refine ⟨hitem, ?_⟩
      intro u hu
      rcases mem_followOfTail.1 (hs ▸ hu) with hu | ⟨hnull, hu⟩
      · exact hterminals u (mem_followOfTail.2 (.inl hu))
      · rcases (hunion u).1 hu with hu | hu
        · exact hterminals u (mem_followOfTail.2 (.inr ⟨hnull, hu⟩))
        · refine ⟨g.followOfTail j added, .inr (List.mem_append_left _ ?_),
            mem_followOfTail.2 (.inr ⟨hnull, hu⟩)⟩
          exact hall hnull (mem_successorsWith.2 ⟨hmem, rfl⟩)
    · exact (h.spread j t hj e he).mono hmono

/-- Each step keeps the invariant, and makes the table grow. -/
theorem ClosureInvariant.take (hg : g.WellFormed) {i : Item} {s : TokenSet}
    {rest table' more : ItemTable} (h : g.ClosureInvariant kernel table ((i, s) :: rest))
    (habsorbed : g.Absorbed table i s table' more) :
    g.ClosureInvariant kernel table' (more ++ rest) ∧ table.weight < table'.weight := by
  have hentry := h.entry_absorbed hg habsorbed
  cases habsorbed with
  | enter hi _ hall =>
    refine ⟨h.enter hi hall hentry, ?_⟩
    rw [put_eq_append hi]
    simp [weight]
  | @extend old added _ hi hnew hadded _ hall =>
    refine ⟨h.extend hi hadded hall hentry, ?_⟩
    have hweight := weight_put (s := TokenSet.union old added) hi
    have hlt : old.length < (TokenSet.union old added).length := by
      apply (Sorted.union_eq_or_length_lt TokenSet.before old _).resolve_left
      intro heq
      refine hnew fun t ht => ?_
      by_contra hold
      have hadd : t ∈ added := by simpa [hadded, hold] using ht
      exact hold (heq ▸ (Sorted.mem_union TokenSet.before).2 (.inr hadd))
    omega

/-- The table holds no more than can occur. -/
theorem ClosureInvariant.weight_le (h : g.ClosureInvariant kernel table todo) :
    table.weight ≤ g.closureBound kernel := by
  have hentries : ∀ n ∈ table.map (fun e => e.2.length + 1),
      n ≤ (g.closureTerminals kernel).length + 1 := by
    intro n hn
    obtain ⟨e, he, rfl⟩ := List.mem_map.1 hn
    have hentry := h.entry e (.inl he)
    exact Nat.succ_le_succ (hentry.nodup.subperm hentry.subset).length_le
  have hlength : table.length ≤ kernel.length + g.productions.size := by
    have hsub : (table.map Prod.fst).toFinset ⊆ g.closureNodes (kernel.map Prod.fst) := by
      intro i hi
      obtain ⟨e, he, rfl⟩ := List.mem_map.1 (List.mem_toFinset.1 hi)
      exact mem_closureNodes (mem_closure_iff.1 (h.entry e (.inl he)).mem_closure)
    have hcard := (Finset.card_le_card hsub).trans (card_closureNodes_le g _)
    rwa [List.toFinset_card_of_nodup h.nodup, List.length_map, List.length_map] at hcard
  apply (List.sum_le_card_nsmul _ _ hentries).trans
  rw [List.length_map]
  exact Nat.mul_le_mul hlength
    (Nat.succ_le_succ (length_closureTerminals_le g kernel))

/-- When no item is left, what is covered is in the table. -/
theorem ClosureInvariant.pending_iff (h : g.ClosureInvariant kernel table []) {i : Item}
    {s : TokenSet} : Pending table [] i s ↔ (i, s) ∈ table := by
  unfold Pending
  rw [lookup_eq_some_iff_mem h.nodup]
  simp

/-- When nothing waits, each item of the closure has an entry. -/
theorem ClosureInvariant.exists_mem (h : g.ClosureInvariant kernel table []) {i : Item}
    (hi : i ∈ g.closure (kernel.map Prod.fst)) : ∃ s, (i, s) ∈ table := by
  obtain ⟨root, hroot, hpath⟩ := mem_closure_iff.1 hi
  clear hi
  induction hpath with
  | refl =>
    obtain ⟨e, he, rfl⟩ := List.mem_map.1 hroot
    obtain ⟨⟨s, hs⟩, -⟩ := h.kernel e he
    exact ⟨s, h.pending_iff.1 hs⟩
  | @tail i j _ hstep ih =>
    obtain ⟨s, hs⟩ := ih
    obtain ⟨⟨s', hs'⟩, -⟩ := h.spread i s ((lookup_eq_some_iff_mem h.nodup).2 hs)
      (j, g.followOfTail i s) (mem_successorsWith.2 ⟨hstep, rfl⟩)
    exact ⟨s', h.pending_iff.1 hs'⟩

/-- What an entry of the table hands on is in the table. -/
theorem ClosureInvariant.exists_mem_of_followOfTail (h : g.ClosureInvariant kernel table [])
    {i j : Item} {s : TokenSet} (hs : (i, s) ∈ table) (hj : j ∈ g.successors i) {t : TokenId}
    (ht : t ∈ g.followOfTail i s) : ∃ s', (j, s') ∈ table ∧ t ∈ s' := by
  obtain ⟨-, hall⟩ := h.spread i s ((lookup_eq_some_iff_mem h.nodup).2 hs)
    (j, g.followOfTail i s) (mem_successorsWith.2 ⟨hj, rfl⟩)
  obtain ⟨s', hs', hts⟩ := hall t ht
  exact ⟨s', h.pending_iff.1 hs', hts⟩

/-- When nothing waits, each terminal that arrives is in the entry of its item. -/
theorem ClosureInvariant.exists_mem_of_follows (h : g.ClosureInvariant kernel table []) {i : Item}
    {t : TokenId} (hi : g.Follows kernel i t) : ∃ s, (i, s) ∈ table ∧ t ∈ s := by
  induction hi with
  | kernel hi ht =>
    obtain ⟨s, hs, hts⟩ := (h.kernel _ hi).2 _ ht
    exact ⟨s, h.pending_iff.1 hs, hts⟩
  | first hi hj ht =>
    obtain ⟨s, hs⟩ := h.exists_mem hi
    exact h.exists_mem_of_followOfTail hs hj (mem_followOfTail.2 (.inl ht))
  | carry _ hj hnull ih =>
    obtain ⟨s, hs, ht⟩ := ih
    exact h.exists_mem_of_followOfTail hs hj (mem_followOfTail.2 (.inr ⟨hnull, ht⟩))

/-- A closure with lookaheads: it has one entry for each item of the closure, with exactly the
terminals that follow the item. -/
structure IsClosure (g : Grammar) (kernel table : ItemTable) : Prop where
  nodup : (table.map Prod.fst).Nodup
  nodup_of_mem : ∀ i s, (i, s) ∈ table → s.Nodup
  exists_mem_iff : ∀ i, (∃ s, (i, s) ∈ table) ↔ i ∈ g.closure (kernel.map Prod.fst)
  follows_iff : ∀ i s, (i, s) ∈ table → ∀ t, t ∈ s ↔ g.Follows kernel i t

/-- **When nothing waits, the table is the closure.** -/
theorem ClosureInvariant.isClosure (h : g.ClosureInvariant kernel table []) :
    g.IsClosure kernel table := by
  refine ⟨h.nodup, fun i s hs => (h.entry _ (.inl hs)).nodup, ?_, ?_⟩
  · intro i
    exact ⟨fun ⟨s, hs⟩ => (h.entry _ (.inl hs)).mem_closure, h.exists_mem⟩
  · intro i s hs t
    refine ⟨fun ht => (h.entry _ (.inl hs)).follows t ht, ?_⟩
    intro hfollows
    obtain ⟨s', hs', ht⟩ := h.exists_mem_of_follows hfollows
    rw [← lookup_eq_some_iff_mem h.nodup] at hs hs'
    obtain rfl := Option.some.inj (hs.symm.trans hs')
    exact ht

/-- In the beginning nothing is in the table and all entries are left, in any order. -/
theorem closureInvariant_start (hkernel : ∀ e ∈ kernel, e.2.Nodup)
    (htodo : ∀ e, e ∈ todo ↔ e ∈ kernel) : g.ClosureInvariant kernel [] todo := by
  refine ⟨List.nodup_nil, ?_, ?_, fun i s hs => by cases hs⟩
  · rintro e (he | he)
    · cases he
    · rw [htodo] at he
      refine ⟨mem_closure_of_mem (List.mem_map_of_mem he), hkernel e he, ?_,
        fun t ht => .kernel he ht⟩
      intro t ht
      exact List.mem_append_right _ (List.mem_flatMap.2 ⟨e, he, ht⟩)
  · exact fun e he => .of_pending (.inr ((htodo e).2 he)) (List.Subset.refl _)

section Increments

variable {absorb : ItemTable → Item × TokenSet → Option (ItemTable × ItemTable)}

/-- An entry that brings nothing new can be dropped. -/
theorem Increments.skip_invariant (h : g.Increments absorb) {e : Item × TokenSet}
    {rest : ItemTable} (hinv : g.ClosureInvariant kernel table (e :: rest))
    (he : absorb table e = none) : g.ClosureInvariant kernel table rest := by
  obtain ⟨old, hold, hsub⟩ := h.skip he
  exact hinv.skip hold hsub

/-- **A closure by increments is exact**, in whatever order the entries are taken. -/
theorem Increments.isClosure_run (h : g.Increments absorb) (hg : g.WellFormed)
    (hkernel : ∀ e ∈ kernel, e.2.Nodup) (htodo : ∀ e, e ∈ todo ↔ e ∈ kernel) :
    g.IsClosure kernel (Worklist.run absorb (g.closureBound kernel) todo []) := by
  refine ClosureInvariant.isClosure ?_
  exact Worklist.run_induction weight (g.closureBound kernel) (fun _ _ _ => h.skip_invariant)
    (fun _ _ _ _ _ hinv he => hinv.take hg (h.take he)) (fun _ _ hinv => hinv.weight_le)
    (closureInvariant_start hkernel htodo) (Nat.le_add_left _ _)

end Increments

/-- **The closure with lookaheads is exact.** -/
theorem closureWithLookaheads_spec (hg : g.WellFormed) (hkernel : ∀ e ∈ kernel, e.2.Nodup) :
    g.IsClosure kernel (g.closureWithLookaheads kernel) :=
  g.increments_absorbItem.isClosure_run hg hkernel fun _ => Iff.rfl

end Lookaheads

end Grammar

end FrontEnd
