import FrontEnd.Lalr.Automaton
import FrontEnd.Proofs.Lalr.Closure
import FrontEnd.Proofs.Lists
import Mathlib.Algebra.BigOperators.Fin
import Mathlib.Algebra.Order.BigOperators.Group.Finset
import Mathlib.Data.Finset.Powerset

/-!
# The automaton of a grammar

The construction of the automaton ends with a state for each kernel that symbols lead to: the kernel
behind a symbol holds the items of the closure that have moved over the symbol, and there is a move
for each symbol that an item of the closure goes on with.

## Main Definitions

* `Grammar.items` — all items of a grammar
* `Grammar.IsMoves` — what the kernels behind some items hold
* `Grammar.Constructed` — what each step of the construction keeps
* `Grammar.IsAutomaton` — the states and moves of an automaton are those of the grammar

## Main Statements

* `Grammar.isAutomaton_automaton` — the construction gives the automaton of the grammar

## Design Notes

The construction extends a list of kernels, and a state keeps its number.  The invariant speaks of
the states that have their moves already: their kernels are numbered, and every kernel that is there
is reached by symbols.  At the end all states have their moves, and the invariant is the
specification.
-/

namespace FrontEnd

/-! ### Orders

Kernels are kept sorted, so that two kernels with the same items are equal lists.  This needs an
order of items and one of symbols. -/

/-- Items are ordered by their productions, and then by their dots. -/
theorem Item.order_before : Sorted.Order Item.before := by
  refine ⟨?_, ?_, ?_⟩
  · rintro ⟨p, d⟩ ⟨q, e⟩ ⟨r, f⟩ h h'
    simp only [Item.before, Bool.or_eq_true, Bool.and_eq_true, decide_eq_true_eq,
      beq_iff_eq] at h h' ⊢
    omega
  · rintro ⟨p, d⟩ ⟨q, e⟩ h
    simp only [Item.before, Bool.or_eq_true, Bool.and_eq_true, decide_eq_true_eq, beq_iff_eq,
      Bool.or_eq_false_iff, Bool.and_eq_false_iff, decide_eq_false_iff_not, beq_eq_false_iff_ne]
      at h ⊢
    omega
  · rintro ⟨p, d⟩ ⟨q, e⟩ h
    simp only [ne_eq, Item.mk.injEq] at h
    simp only [Item.before, Bool.or_eq_true, Bool.and_eq_true, decide_eq_true_eq, beq_iff_eq]
    omega

/-- Terminals come before nonterminals, and otherwise the numbers decide. -/
theorem Symbol.order_before : Sorted.Order Symbol.before := by
  refine ⟨?_, ?_, ?_⟩
  · rintro (s | v) (t | w) (u | x) h h' <;>
      simp only [Symbol.before, decide_eq_true_eq, Bool.false_eq_true] at h h' ⊢
    · exact Int.lt_trans h h'
    · exact Nat.lt_trans h h'
  · rintro (s | v) (t | w) h <;>
      simp only [Symbol.before, decide_eq_true_eq, decide_eq_false_iff_not] at h ⊢
    · exact Int.not_lt.2 (Int.le_of_lt h)
    · cases h
    · exact Nat.not_lt.2 (Nat.le_of_lt h)
  · rintro (s | v) (t | w) h <;> simp only [Symbol.before, decide_eq_true_eq]
    · exact Int.lt_or_gt_of_ne fun heq => h (by rw [heq])
    · exact .inl trivial
    · exact .inr trivial
    · exact Nat.lt_or_gt_of_ne fun heq => h (by rw [heq])

namespace Grammar

variable {g : Grammar}

/-! ### All items

There are only so many items, and a kernel is a sorted list of them.  So there are no more kernels
than sets of items, which is the bound of the construction. -/

/-- The items of all productions, the augmented one included. -/
def items (g : Grammar) : Finset Item :=
  (Finset.range (g.productions.size + 1)).biUnion fun p =>
    (Finset.range ((g.rhsOf p).length + 1)).image (Item.mk p)

/-- An item is a production with a place in its right-hand side. -/
theorem mem_items {i : Item} :
    i ∈ g.items ↔ i.production ≤ g.productions.size ∧
      i.dot ≤ (g.rhsOf i.production).length := by
  unfold items
  simp only [Finset.mem_biUnion, Finset.mem_range, Finset.mem_image, Nat.lt_succ_iff]
  constructor
  · rintro ⟨p, hp, d, hd, rfl⟩
    exact ⟨hp, hd⟩
  · rintro ⟨hp, hd⟩
    exact ⟨_, hp, _, hd, rfl⟩

/-- The items of all productions, counted production by production. -/
theorem sum_length_rhsOf (g : Grammar) :
    ∑ p ∈ Finset.range g.productions.size, ((g.rhsOf p).length + 1) =
      totalLength g.productions.toList + g.productions.size := by
  have hlength : ∀ p : Fin g.productions.toList.length, (g.rhsOf p).length + 1 =
      g.productions.toList[p.1].rhs.length + 1 := by
    intro p
    have hp : g.productions[p.1]? = some g.productions.toList[p.1] := by
      rw [← Array.getElem?_toList, List.getElem?_eq_getElem]
    rw [rhsOf_of_getElem? hp]
  rw [← Array.length_toList, Finset.sum_range, Finset.sum_congr rfl fun p _ => hlength p,
    Fin.sum_univ_fun_getElem g.productions.toList fun p => p.rhs.length + 1, List.sum_map_add]
  simp [totalLength]

/-- There are no more items than the bound allows for. -/
theorem card_items_le (g : Grammar) : g.items.card ≤ g.numItems := by
  apply Finset.card_biUnion_le.trans
  have hcard : ∀ p ∈ Finset.range (g.productions.size + 1),
      ((Finset.range ((g.rhsOf p).length + 1)).image (Item.mk p)).card ≤
        (g.rhsOf p).length + 1 := fun p _ => Finset.card_image_le.trans (by rw [Finset.card_range])
  apply (Finset.sum_le_sum hcard).trans
  have haccept : g.rhsOf g.productions.size = [.nonterminal g.start] := by simp [rhsOf]
  rw [Finset.sum_range_succ, sum_length_rhsOf, haccept]
  exact Nat.le_refl _

/-- The beginning of a production is an item. -/
theorem start_mem_items {p : Nat} (h : p ≤ g.productions.size) : Item.start p ∈ g.items :=
  mem_items.2 ⟨h, Nat.zero_le _⟩

/-- An item that goes on with a symbol has a place behind it. -/
theorem advance_mem_items {i : Item} {s : Symbol} (h : i ∈ g.items)
    (hnext : g.nextSymbol? i = some s) : i.advance ∈ g.items := by
  have hlt : i.dot < (g.rhsOf i.production).length := (List.getElem?_eq_some_iff.1 hnext).choose
  exact mem_items.2 ⟨(mem_items.1 h).1, hlt⟩

/-- A closure has items of the grammar only. -/
theorem closure_subset_items {kernel : List Item} (h : ∀ i ∈ kernel, i ∈ g.items) {i : Item}
    (hi : i ∈ g.closure kernel) : i ∈ g.items := by
  rcases closure_cases hi with hi | ⟨j, -, hj⟩
  · exact h i hi
  · obtain ⟨p, production, hp, -, rfl⟩ := mem_successors.1 hj
    exact start_mem_items (Nat.le_of_lt (Array.getElem?_eq_some_iff.1 hp).choose)

/-! ### Moves

The items of a closure are dealt out to the kernels behind their next symbols.  The loop takes one
item after the other, and what the kernels hold so far is said of the items that have been taken. -/

section Moves

variable {found : List (Symbol × List Item)} {s x : Symbol} {i : Item}

/-- There is a kernel for each symbol that has come up. -/
theorem mem_map_fst_addToKernel :
    x ∈ (addToKernel s i found).map Prod.fst ↔ x = s ∨ x ∈ found.map Prod.fst := by
  induction found with
  | nil => simp [addToKernel]
  | cons e rest ih =>
    obtain ⟨t, kernel⟩ := e
    unfold addToKernel
    split
    · next h => simp [h]
    · split
      · simp
      · rw [List.map_cons, List.map_cons, List.mem_cons, List.mem_cons, ih]
        exact or_left_comm

/-- The symbols stay in order. -/
theorem isSorted_addToKernel (h : Sorted.IsSorted Symbol.before (found.map Prod.fst)) :
    Sorted.IsSorted Symbol.before ((addToKernel s i found).map Prod.fst) := by
  induction found with
  | nil => exact List.pairwise_singleton _ _
  | cons e rest ih =>
    obtain ⟨t, kernel⟩ := e
    obtain ⟨ht, hrest⟩ := List.pairwise_cons.1 h
    unfold addToKernel
    split
    · exact h
    · next hne =>
      split
      · next hbefore =>
        refine List.pairwise_cons.2 ⟨?_, h⟩
        intro x hx
        rcases List.mem_cons.1 hx with rfl | hx
        · exact hbefore
        · exact Symbol.order_before.trans _ _ _ hbefore (ht x hx)
      · next hafter =>
        refine List.pairwise_cons.2 ⟨?_, ih hrest⟩
        intro x hx
        rcases mem_map_fst_addToKernel.1 hx with rfl | hx
        · exact (Symbol.order_before.total _ _ (Ne.symm hne)).resolve_left hafter
        · exact ht x hx

/-- The item is entered into the kernel behind the symbol, and the other kernels stay. -/
theorem lookup_addToKernel (h : Sorted.IsSorted Symbol.before (found.map Prod.fst)) :
    (addToKernel s i found).lookup x =
      if x = s then some (Sorted.insert Item.before i ((found.lookup s).getD []))
      else found.lookup x := by
  induction found with
  | nil => exact lookup_cons_eq_ite x s [i] []
  | cons e rest ih =>
    obtain ⟨t, kernel⟩ := e
    obtain ⟨ht, hrest⟩ := List.pairwise_cons.1 h
    unfold addToKernel
    split
    · next hts =>
      subst hts
      rw [lookup_cons_eq_ite, lookup_cons_eq_ite, lookup_cons_eq_ite, if_pos rfl]
      by_cases hx : x = t
      · rw [if_pos hx, if_pos hx]
        rfl
      · rw [if_neg hx, if_neg hx, if_neg hx]
    · next hne =>
      split
      · next hbefore =>
        -- the symbol comes before all others, so it has no kernel yet
        have hnone : ((t, kernel) :: rest).lookup s = none := by
          rw [Option.eq_none_iff_forall_ne_some]
          intro l hl
          have hmem := (lookup_eq_some_iff_mem (h.nodup Symbol.order_before)).1 hl
          have hs : s.before s = true := by
            rcases List.mem_cons.1 hmem with heq | hmem
            · exact absurd (Prod.mk.inj heq).1.symm hne
            · exact Symbol.order_before.trans _ _ _ hbefore
                (ht s (List.mem_map.2 ⟨_, hmem, rfl⟩))
          rw [Symbol.order_before.asymm s s hs] at hs
          cases hs
        rw [lookup_cons_eq_ite, hnone]
        rfl
      · rw [lookup_cons_eq_ite, ih hrest, lookup_cons_eq_ite, lookup_cons_eq_ite,
          if_neg (Ne.symm hne)]
        by_cases hx : x = t
        · subst hx
          rw [if_pos rfl, if_neg hne, if_pos rfl]
        · rw [if_neg hx, if_neg hx]

/-- The kernels behind some items: the kernel behind a symbol holds the items that have moved over
it, and there is a kernel only where an item has. -/
structure IsMoves (g : Grammar) (items : List Item) (found : List (Symbol × List Item)) :
    Prop where
  sorted : Sorted.IsSorted Symbol.before (found.map Prod.fst)
  sorted_kernel : ∀ s, Sorted.IsSorted Item.before ((found.lookup s).getD [])
  ne_nil : ∀ s, found.lookup s ≠ some []
  mem_iff : ∀ s j, j ∈ (found.lookup s).getD [] ↔
    ∃ i ∈ items, g.nextSymbol? i = some s ∧ j = i.advance

/-- A complete item belongs to no kernel. -/
theorem IsMoves.skip {items : List Item} (h : g.IsMoves items found)
    (hi : g.nextSymbol? i = none) : g.IsMoves (items ++ [i]) found := by
  refine ⟨h.sorted, h.sorted_kernel, h.ne_nil, ?_⟩
  intro s j
  rw [h.mem_iff]
  simp [or_and_right, exists_or, hi]

/-- Any other item belongs to the kernel behind its next symbol. -/
theorem IsMoves.add {items : List Item} (h : g.IsMoves items found)
    (hi : g.nextSymbol? i = some s) : g.IsMoves (items ++ [i]) (addToKernel s i.advance found) := by
  have hlookup := fun x => lookup_addToKernel (s := s) (i := i.advance) (x := x) h.sorted
  refine ⟨isSorted_addToKernel h.sorted, ?_, ?_, ?_⟩
  · intro x
    rw [hlookup]
    split
    · exact Sorted.isSorted_insert Item.order_before (h.sorted_kernel s)
    · exact h.sorted_kernel x
  · intro x hx
    rw [hlookup] at hx
    split at hx
    · have hmem := (Sorted.mem_insert Item.before (l := (found.lookup s).getD [])).2
        (.inl (rfl : i.advance = i.advance))
      rw [Option.some.inj hx] at hmem
      cases hmem
    · exact h.ne_nil x hx
  · intro x j
    rw [hlookup]
    split
    · next hx =>
      subst hx
      show j ∈ Sorted.insert Item.before i.advance _ ↔ _
      rw [Sorted.mem_insert, h.mem_iff]
      simp [or_and_right, exists_or, hi, or_comm]
    · next hx =>
      rw [h.mem_iff]
      simp [or_and_right, exists_or, hi, Ne.symm hx]

/-- The kernels found, with what an item leads to. -/
def addMove (g : Grammar) (found : List (Symbol × List Item)) (i : Item) :
    List (Symbol × List Item) :=
  match g.nextSymbol? i with
  | some s => addToKernel s i.advance found
  | none => found

/-- **One item** is dealt out, whichever of the two it is. -/
theorem IsMoves.addMove {items : List Item} (h : g.IsMoves items found) (i : Item) :
    g.IsMoves (items ++ [i]) (g.addMove found i) := by
  unfold Grammar.addMove
  split
  · next s hs => exact h.add hs
  · next hs => exact h.skip hs

/-- **All items** of a closure are dealt out. -/
theorem isMoves_moves (g : Grammar) (kernel : List Item) :
    g.IsMoves (g.closure kernel) (g.moves kernel) := by
  have hfold : ∀ (l items : List Item) (found : List (Symbol × List Item)),
      g.IsMoves items found → g.IsMoves (items ++ l) (l.foldl g.addMove found) := by
    intro l
    induction l with
    | nil =>
      intro items found h
      rw [List.append_nil]
      exact h
    | cons i l ih =>
      intro items found h
      rw [List.append_cons, List.foldl_cons]
      exact ih _ _ (h.addMove i)
  exact hfold (g.closure kernel) [] [] ⟨List.Pairwise.nil, fun s => List.Pairwise.nil,
    fun s hs => (by simp at hs), fun s j => (by simp)⟩

end Moves

end Grammar

/-! ### Numbers of kernels

A kernel that is known keeps its number, and a new one gets the next number. -/

section Numbers

variable {kernels : Array (List Item)}

/-- The kernel of a state is found behind its number. -/
def Numbered (kernels : Array (List Item)) (e : Symbol × List Item) (move : Symbol × Nat) : Prop :=
  e.1 = move.1 ∧ kernels[move.2]? = some e.2

/-- What is found for a symbol is numbered. -/
theorem lookup_of_numbered {found : List (Symbol × List Item)} {moves : List (Symbol × Nat)}
    (h : List.Forall₂ (Numbered kernels) found moves) (s : Symbol) :
    Option.Rel (fun kernel t => kernels[t]? = some kernel) (found.lookup s) (moves.lookup s) := by
  induction h with
  | nil => exact .none
  | @cons e move _ _ he _ ih =>
    obtain ⟨x, kernel⟩ := e
    obtain ⟨y, t⟩ := move
    obtain ⟨rfl, ht⟩ := he
    rw [lookup_cons_eq_ite, lookup_cons_eq_ite]
    by_cases hs : s = x
    · rw [if_pos hs, if_pos hs]
      exact .some ht
    · rw [if_neg hs, if_neg hs]
      exact ih

/-- The symbols of the moves are those of the kernels behind them. -/
theorem map_fst_of_numbered {found : List (Symbol × List Item)} {moves : List (Symbol × Nat)}
    (h : List.Forall₂ (Numbered kernels) found moves) :
    moves.map Prod.fst = found.map Prod.fst := by
  induction h with
  | nil => rfl
  | cons he _ ih => rw [List.map_cons, List.map_cons, ih, he.1]

/-- The kernels with those that are added, and the numbers: all have numbers, those met before keep
theirs, and each kernel that is added has come up. -/
structure IsNumbering (kernels : Array (List Item)) (found : List (Symbol × List Item))
    (all : Array (List Item)) (moves : List (Symbol × Nat)) : Prop where
  nodup : all.toList.Nodup
  keeps : ∀ (i : Nat) kernel, kernels[i]? = some kernel → all[i]? = some kernel
  numbered : List.Forall₂ (Numbered all) found moves
  comes : ∀ t, kernels.size ≤ t → t < all.size → ∃ s, (s, t) ∈ moves
  size_le : kernels.size ≤ all.size

/-- The kernels behind a state are numbered one after the other. -/
theorem isNumbering_numberKernels (hnodup : kernels.toList.Nodup)
    (found : List (Symbol × List Item)) :
    IsNumbering kernels found (numberKernels kernels found).1 (numberKernels kernels found).2 := by
  induction found generalizing kernels with
  | nil => exact ⟨hnodup, fun _ _ h => h, .nil, fun t h h' => absurd h' (Nat.not_lt.2 h), le_rfl⟩
  | cons e rest ih =>
    obtain ⟨s, kernel⟩ := e
    unfold numberKernels
    split
    -- a kernel that is known keeps its number
    · next i hi =>
      obtain ⟨hnodup', hkeeps, hnumbered, hcomes, hsize⟩ := ih hnodup
      have hkernel : kernels[i]? = some kernel := by
        rw [Array.idxOf?_eq_map_finIdxOf?_val] at hi
        obtain ⟨k, hk, rfl⟩ := Option.map_eq_some_iff.1 hi
        rw [← (Array.finIdxOf?_eq_some_iff.1 hk).1]
        exact Array.getElem?_eq_getElem k.isLt
      refine ⟨hnodup', hkeeps, .cons ⟨rfl, hkeeps i kernel hkernel⟩ hnumbered, ?_, hsize⟩
      intro t ht ht'
      obtain ⟨x, hx⟩ := hcomes t ht ht'
      exact ⟨x, List.mem_cons_of_mem _ hx⟩
    · next hnone =>
      have hnew : kernel ∉ kernels := Array.idxOf?_eq_none_iff.1 hnone
      have hpush : (kernels.push kernel).toList.Nodup := by
        rw [Array.toList_push]
        refine List.nodup_append.2 ⟨hnodup, List.nodup_singleton kernel, ?_⟩
        rintro a ha b hb rfl
        obtain rfl := List.mem_singleton.1 hb
        exact hnew (Array.mem_toList_iff.1 ha)
      obtain ⟨hnodup', hkeeps, hnumbered, hcomes, hsize⟩ := ih hpush
      have hlast : (numberKernels (kernels.push kernel) rest).1[kernels.size]? = some kernel :=
        hkeeps _ _ Array.getElem?_push_size
      rw [Array.size_push] at hcomes hsize
      refine ⟨hnodup', ?_, .cons ⟨rfl, hlast⟩ hnumbered, ?_, Nat.le_of_succ_le hsize⟩
      · intro i other hi
        have hlt : i < kernels.size := (Array.getElem?_eq_some_iff.1 hi).choose
        apply hkeeps i other
        rw [Array.getElem?_push, if_neg (Nat.ne_of_lt hlt)]
        exact hi
      · intro t ht ht'
        rcases Nat.eq_or_lt_of_le ht with rfl | ht
        · exact ⟨s, List.mem_cons_self⟩
        · obtain ⟨x, hx⟩ := hcomes t ht ht'
          exact ⟨x, List.mem_cons_of_mem _ hx⟩

end Numbers

namespace Grammar

variable {g : Grammar}

/-! ### The construction

One state after the other gets its moves, and the states behind them wait at the end of the list.
The numbers of sets of items are the bound on the rounds. -/

section Construction

variable {a : ItemAutomaton}

/-- A kernel is sorted and holds items of the grammar. -/
def IsKernel (g : Grammar) (kernel : List Item) : Prop :=
  Sorted.IsSorted Item.before kernel ∧ ∀ i ∈ kernel, i ∈ g.items

/-- What each step of the construction keeps: the first states have their moves, and each state but
the first one is behind a move of an earlier state. -/
structure Constructed (g : Grammar) (a : ItemAutomaton) : Prop where
  start : a.kernels[0]? = some [Item.start g.acceptProduction]
  nodup : a.kernels.toList.Nodup
  isKernel : ∀ kernel ∈ a.kernels, g.IsKernel kernel
  size_le : a.moves.size ≤ a.kernels.size
  moves : ∀ (s : Nat) kernel moves, a.kernels[s]? = some kernel → a.moves[s]? = some moves →
    List.Forall₂ (Numbered a.kernels) (g.moves kernel) moves
  origin : ∀ t, 0 < t → t < a.kernels.size →
    ∃ s x moves, s < t ∧ a.moves[s]? = some moves ∧ (x, t) ∈ moves

/-- Different states have different kernels, so there are at most as many as sets of items. -/
theorem Constructed.size_le_two_pow (h : g.Constructed a) : a.kernels.size ≤ 2 ^ g.numItems := by
  have hinj : (a.kernels.toList.map List.toFinset).Nodup := by
    refine List.Nodup.map_on ?_ h.nodup
    intro kernel hkernel other hother heq
    refine (h.isKernel kernel (Array.mem_toList_iff.1 hkernel)).1.ext Item.order_before
      (h.isKernel other (Array.mem_toList_iff.1 hother)).1 ?_
    intro i
    rw [← List.mem_toFinset, heq, List.mem_toFinset]
  have hsub : (a.kernels.toList.map List.toFinset).toFinset ⊆ g.items.powerset := by
    intro set hset
    obtain ⟨kernel, hkernel, rfl⟩ := List.mem_map.1 (List.mem_toFinset.1 hset)
    apply Finset.mem_powerset.2
    intro i hi
    exact (h.isKernel kernel (Array.mem_toList_iff.1 hkernel)).2 i (List.mem_toFinset.1 hi)
  have hcard := Finset.card_le_card hsub
  rw [List.toFinset_card_of_nodup hinj, Finset.card_powerset, List.length_map,
    Array.length_toList] at hcard
  exact hcard.trans (Nat.pow_le_pow_right Nat.two_pos (card_items_le g))

/-- The kernels behind a kernel are kernels. -/
theorem isKernel_of_mem_moves {kernel : List Item} (h : g.IsKernel kernel) {s : Symbol}
    {behind : List Item} (hs : (s, behind) ∈ g.moves kernel) : g.IsKernel behind := by
  have hmoves := g.isMoves_moves kernel
  have hlookup : (g.moves kernel).lookup s = some behind :=
    (lookup_eq_some_iff_mem (hmoves.sorted.nodup Symbol.order_before)).2 hs
  have hsorted := hmoves.sorted_kernel s
  have hmem := hmoves.mem_iff s
  rw [hlookup] at hsorted hmem
  refine ⟨hsorted, ?_⟩
  intro j hj
  obtain ⟨i, hi, hnext, rfl⟩ := (hmem j).1 hj
  exact advance_mem_items (closure_subset_items h.2 hi) hnext

/-- The moves of the next state are added. -/
theorem Constructed.step (h : g.Constructed a) {kernel : List Item}
    (hkernel : a.kernels[a.moves.size]? = some kernel) :
    g.Constructed ⟨(numberKernels a.kernels (g.moves kernel)).1,
      a.moves.push (numberKernels a.kernels (g.moves kernel)).2⟩ := by
  have hnumbering := isNumbering_numberKernels h.nodup (g.moves kernel)
  generalize (numberKernels a.kernels (g.moves kernel)).1 = all at hnumbering ⊢
  generalize (numberKernels a.kernels (g.moves kernel)).2 = moves at hnumbering ⊢
  have hlt : a.moves.size < a.kernels.size := (Array.getElem?_eq_some_iff.1 hkernel).choose
  refine ⟨hnumbering.keeps _ _ h.start, hnumbering.nodup, ?_, ?_, ?_, ?_⟩
  · -- a kernel was there before, or it is one of those behind the next state
    intro other hother
    obtain ⟨t, ht⟩ := Array.mem_iff_getElem?.1 hother
    by_cases hold : t < a.kernels.size
    · have hkept := hnumbering.keeps t _ (Array.getElem?_eq_getElem hold)
      rw [← Option.some.inj (hkept.symm.trans ht)]
      exact h.isKernel _ (Array.getElem_mem hold)
    · obtain ⟨x, hx⟩ := hnumbering.comes t (Nat.not_lt.1 hold)
        (Array.getElem?_eq_some_iff.1 ht).choose
      obtain ⟨⟨y, behind⟩, hmem, -, hbehind⟩ := exists_mem_of_forall₂ hnumbering.numbered.flip hx
      rw [← Option.some.inj (hbehind.symm.trans ht)]
      exact isKernel_of_mem_moves (h.isKernel _ (Array.mem_of_getElem? hkernel)) hmem
  · show (a.moves.push moves).size ≤ all.size
    rw [Array.size_push]
    exact Nat.le_trans hlt hnumbering.size_le
  · intro s other row hs hrow
    by_cases hlast : s = a.moves.size
    · subst hlast
      obtain rfl := Option.some.inj ((hnumbering.keeps _ _ hkernel).symm.trans hs)
      have hpush : (a.moves.push moves)[a.moves.size]? = some moves := Array.getElem?_push_size
      obtain rfl := Option.some.inj (hpush.symm.trans hrow)
      exact hnumbering.numbered
    · -- an old state keeps its kernel and the numbers of its moves
      have hrow : a.moves[s]? = some row := by
        rw [← hrow, Array.getElem?_push, if_neg hlast]
      have hold : s < a.kernels.size :=
        Nat.lt_of_lt_of_le (Array.getElem?_eq_some_iff.1 hrow).choose h.size_le
      obtain ⟨kept, hkept⟩ : ∃ kept, a.kernels[s]? = some kept :=
        ⟨_, Array.getElem?_eq_getElem hold⟩
      obtain rfl := Option.some.inj ((hnumbering.keeps s kept hkept).symm.trans hs)
      apply (h.moves s kept row hkept hrow).imp
      rintro e move ⟨heq, hmove⟩
      exact ⟨heq, hnumbering.keeps _ _ hmove⟩
  · -- a new state was met by a move of the next state, which comes before it
    intro t hpos ht
    by_cases hold : t < a.kernels.size
    · obtain ⟨s, x, row, hst, hrow, hx⟩ := h.origin t hpos hold
      refine ⟨s, x, row, hst, ?_, hx⟩
      rw [Array.getElem?_push,
        if_neg (Nat.ne_of_lt (Array.getElem?_eq_some_iff.1 hrow).choose)]
      exact hrow
    · obtain ⟨x, hx⟩ := hnumbering.comes t (Nat.not_lt.1 hold) ht
      exact ⟨a.moves.size, x, moves, Nat.lt_of_lt_of_le hlt (Nat.not_lt.1 hold),
        Array.getElem?_push_size, hx⟩

/-- **All rounds** keep the invariant, and end with moves for all states as long as the bound is
large enough. -/
theorem Constructed.extend (bound : Nat) (h : g.Constructed a)
    (hbound : 2 ^ g.numItems ≤ a.moves.size + bound) :
    g.Constructed (g.extendAutomaton bound a.moves.size a) ∧
      (g.extendAutomaton bound a.moves.size a).moves.size =
        (g.extendAutomaton bound a.moves.size a).kernels.size := by
  induction bound generalizing a with
  | zero => exact ⟨h, Nat.le_antisymm h.size_le (h.size_le_two_pow.trans hbound)⟩
  | succ bound ih =>
    unfold extendAutomaton
    split
    · next hnone => exact ⟨h, Nat.le_antisymm h.size_le (Array.getElem?_eq_none_iff.1 hnone)⟩
    · next kernel hkernel =>
      have hstep := ih (h.step hkernel) (by rw [Array.size_push]; omega)
      rw [Array.size_push] at hstep
      exact hstep

/-- The construction begins with the state of the first item. -/
theorem constructed_start (g : Grammar) :
    g.Constructed ⟨#[[Item.start g.acceptProduction]], #[]⟩ := by
  refine ⟨rfl, List.nodup_singleton _, ?_, Nat.zero_le _, ?_, ?_⟩
  · intro kernel hkernel
    obtain rfl : kernel = [Item.start g.acceptProduction] := by simpa using hkernel
    refine ⟨List.pairwise_singleton _ _, ?_⟩
    intro i hi
    obtain rfl := List.mem_singleton.1 hi
    exact start_mem_items (Nat.le_refl _)
  · intro s kernel moves _ hmoves
    cases hmoves
  · intro t hpos ht
    exact absurd (Nat.lt_of_lt_of_le ht (Nat.le_refl 1)) (Nat.not_lt.2 hpos)

/-- The bound of the construction is large enough. -/
theorem constructed_automaton (g : Grammar) :
    g.Constructed g.automaton ∧ g.automaton.moves.size = g.automaton.kernels.size :=
  g.constructed_start.extend (1 <<< g.numItems) (by simp [Nat.one_shiftLeft])

end Construction

/-! ### States and moves

Read from the tables, the moves of a state are the kernels behind its closure. -/

/-- The states and moves of an automaton are those of the grammar.  The first state stands for no
symbols.  The kernel behind a symbol holds the items of the closure that have moved over it, and
there is a move for each symbol that an item of the closure goes on with, and for no other. -/
structure IsAutomaton (g : Grammar) (a : ItemAutomaton) : Prop where
  size_pos : 0 < a.size
  kernel_zero : a.kernel 0 = [Item.start g.acceptProduction]
  nodup_kernel : ∀ s, (a.kernel s).Nodup
  mem_items : ∀ s, ∀ i ∈ a.kernel s, i ∈ g.items
  nodup_moves : ∀ s, ((a.moves.getD s []).map Prod.fst).Nodup
  target_lt : ∀ s x t, a.target? s x = some t → s < a.size ∧ t < a.size
  mem_kernel : ∀ s x t, a.target? s x = some t → ∀ j, j ∈ a.kernel t ↔
    ∃ i ∈ g.closure (a.kernel s), g.nextSymbol? i = some x ∧ j = i.advance
  exists_target : ∀ s i x, s < a.size → i ∈ g.closure (a.kernel s) → g.nextSymbol? i = some x →
    ∃ t, a.target? s x = some t
  exists_next : ∀ s x t, a.target? s x = some t →
    ∃ i ∈ g.closure (a.kernel s), g.nextSymbol? i = some x
  origin : ∀ t, 0 < t → t < a.size → ∃ s x, s < t ∧ a.target? s x = some t

section States

variable {a : ItemAutomaton}

/-- The kernel of a state is its entry. -/
theorem kernel_eq_of_getElem? {s : Nat} {kernel : List Item} (h : a.kernels[s]? = some kernel) :
    a.kernel s = kernel := by
  unfold ItemAutomaton.kernel
  rw [Array.getD_eq_getD_getElem?, h, Option.getD_some]

/-- Each state has a kernel. -/
theorem Constructed.isKernel_kernel (h : g.Constructed a) (s : Nat) : g.IsKernel (a.kernel s) := by
  unfold ItemAutomaton.kernel
  rw [Array.getD_eq_getD_getElem?]
  cases hs : a.kernels[s]? with
  | none => exact ⟨List.Pairwise.nil, fun i hi => by cases hi⟩
  | some kernel => exact h.isKernel kernel (Array.mem_of_getElem? hs)

/-- The moves of a state have the numbers of the kernels behind it. -/
theorem Constructed.numbered (h : g.Constructed a) (hsize : a.moves.size = a.kernels.size) {s : Nat}
    (hs : s < a.size) :
    List.Forall₂ (Numbered a.kernels) (g.moves (a.kernel s)) (a.moves.getD s []) := by
  have hkernel : a.kernels[s]? = some a.kernels[s] := Array.getElem?_eq_getElem hs
  have hlt : s < a.moves.size := hsize ▸ hs
  have hmoves := h.moves s _ _ hkernel (Array.getElem?_eq_getElem hlt)
  rw [Array.getD_eq_getD_getElem?, Array.getElem?_eq_getElem hlt, kernel_eq_of_getElem? hkernel]
  exact hmoves

/-- What is found for a symbol is what the items of the closure make of it. -/
theorem Constructed.lookup_moves (h : g.Constructed a) (hsize : a.moves.size = a.kernels.size)
    {s : Nat} (hs : s < a.size) (x : Symbol) :
    Option.Rel (fun behind t => a.kernels[t]? = some behind)
      ((g.moves (a.kernel s)).lookup x) (a.target? s x) :=
  lookup_of_numbered (h.numbered hsize hs) x

/-- Only states have moves. -/
theorem lt_size_of_target? (hsize : a.moves.size = a.kernels.size) {s t : Nat} {x : Symbol}
    (h : a.target? s x = some t) : s < a.size := by
  by_contra hle
  have hnone : a.moves[s]? = none := Array.getElem?_eq_none (hsize ▸ Nat.not_lt.1 hle)
  unfold ItemAutomaton.target? at h
  rw [Array.getD_eq_getD_getElem?, hnone] at h
  cases h

/-- A move leads to the state of the kernel behind its symbol. -/
theorem Constructed.lookup_of_target? (h : g.Constructed a)
    (hsize : a.moves.size = a.kernels.size) {s t : Nat} {x : Symbol}
    (ht : a.target? s x = some t) :
    t < a.size ∧ (g.moves (a.kernel s)).lookup x = some (a.kernel t) := by
  have hrel := h.lookup_moves hsize (lt_size_of_target? hsize ht) x
  rw [ht] at hrel
  cases hlookup : (g.moves (a.kernel s)).lookup x with
  | none =>
    rw [hlookup] at hrel
    cases hrel
  | some behind =>
    rw [hlookup] at hrel
    cases hrel with
    | some hbehind =>
      rw [kernel_eq_of_getElem? hbehind]
      exact ⟨(Array.getElem?_eq_some_iff.1 hbehind).choose, rfl⟩

/-- The moves of a state are in the order of their symbols. -/
theorem Constructed.isSorted_moves (h : g.Constructed a) (hsize : a.moves.size = a.kernels.size)
    (s : Nat) : Sorted.IsSorted Symbol.before ((a.moves.getD s []).map Prod.fst) := by
  by_cases hs : s < a.size
  · rw [map_fst_of_numbered (h.numbered hsize hs)]
    exact (g.isMoves_moves (a.kernel s)).sorted
  · have hnone : a.moves[s]? = none := Array.getElem?_eq_none (hsize ▸ Nat.not_lt.1 hs)
    rw [Array.getD_eq_getD_getElem?, hnone]
    exact List.Pairwise.nil

/-- There is a move for the next symbol of each item of the closure. -/
theorem Constructed.exists_target (h : g.Constructed a) (hsize : a.moves.size = a.kernels.size)
    {s : Nat} {i : Item} {x : Symbol} (hs : s < a.size) (hi : i ∈ g.closure (a.kernel s))
    (hnext : g.nextSymbol? i = some x) : ∃ t, a.target? s x = some t := by
  have hrel := h.lookup_moves hsize hs x
  have hmem := ((g.isMoves_moves (a.kernel s)).mem_iff x i.advance).2 ⟨i, hi, hnext, rfl⟩
  cases ht : a.target? s x with
  | some t => exact ⟨t, rfl⟩
  | none =>
    rw [ht] at hrel
    cases hlookup : (g.moves (a.kernel s)).lookup x with
    | none =>
      rw [hlookup] at hmem
      cases hmem
    | some behind =>
      rw [hlookup] at hrel
      cases hrel

/-- There is a move only for the next symbols of items of the closure. -/
theorem Constructed.exists_next (h : g.Constructed a) (hsize : a.moves.size = a.kernels.size)
    {s t : Nat} {x : Symbol} (ht : a.target? s x = some t) :
    ∃ i ∈ g.closure (a.kernel s), g.nextSymbol? i = some x := by
  have hmoves := g.isMoves_moves (a.kernel s)
  have hlookup := (h.lookup_of_target? hsize ht).2
  obtain ⟨j, hj⟩ : ∃ j, j ∈ a.kernel t :=
    List.exists_mem_of_ne_nil _ fun heq => hmoves.ne_nil x (hlookup.trans (by rw [heq]))
  have hmem := hmoves.mem_iff x j
  rw [hlookup] at hmem
  obtain ⟨i, hi, hnext, -⟩ := hmem.1 hj
  exact ⟨i, hi, hnext⟩

/-- Each state but the first one is the target of a move of an earlier state. -/
theorem Constructed.exists_source (h : g.Constructed a) {t : Nat} (hpos : 0 < t)
    (ht : t < a.size) : ∃ s x, s < t ∧ a.target? s x = some t := by
  obtain ⟨s, x, moves, hst, hmoves, hx⟩ := h.origin t hpos ht
  have hs : s < a.size := Nat.lt_trans hst ht
  have hnodup : (moves.map Prod.fst).Nodup := by
    rw [map_fst_of_numbered (h.moves s _ _ (Array.getElem?_eq_getElem hs) hmoves)]
    exact (g.isMoves_moves _).sorted.nodup Symbol.order_before
  refine ⟨s, x, hst, ?_⟩
  unfold ItemAutomaton.target?
  rw [Array.getD_eq_getD_getElem?, hmoves]
  exact (lookup_eq_some_iff_mem hnodup).2 hx

/-- **What has been constructed is the automaton of the grammar.** -/
theorem Constructed.isAutomaton (h : g.Constructed a) (hsize : a.moves.size = a.kernels.size) :
    g.IsAutomaton a where
  size_pos := (Array.getElem?_eq_some_iff.1 h.start).choose
  kernel_zero := kernel_eq_of_getElem? h.start
  nodup_kernel := fun s => (h.isKernel_kernel s).1.nodup Item.order_before
  mem_items := fun s => (h.isKernel_kernel s).2
  nodup_moves := fun s => (h.isSorted_moves hsize s).nodup Symbol.order_before
  target_lt := fun _ _ _ ht => ⟨lt_size_of_target? hsize ht, (h.lookup_of_target? hsize ht).1⟩
  mem_kernel := by
    intro s x t ht j
    have hmem := (g.isMoves_moves (a.kernel s)).mem_iff x j
    rw [(h.lookup_of_target? hsize ht).2] at hmem
    exact hmem
  exists_target := fun _ _ _ => h.exists_target hsize
  exists_next := fun _ _ _ => h.exists_next hsize
  origin := fun _ => h.exists_source

end States

/-- **The construction gives the automaton of the grammar.** -/
theorem isAutomaton_automaton (g : Grammar) : g.IsAutomaton g.automaton := by
  obtain ⟨hconstructed, hsize⟩ := g.constructed_automaton
  exact hconstructed.isAutomaton hsize

/-- The moves of the automaton are in the order of their symbols. -/
theorem isSorted_moves_automaton (g : Grammar) (s : Nat) :
    Sorted.IsSorted Symbol.before ((g.automaton.moves.getD s []).map Prod.fst) := by
  obtain ⟨hconstructed, hsize⟩ := g.constructed_automaton
  exact hconstructed.isSorted_moves hsize s

end Grammar

end FrontEnd
