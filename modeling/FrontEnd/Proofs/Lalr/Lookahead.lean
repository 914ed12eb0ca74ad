import FrontEnd.Lalr.Lookahead
import FrontEnd.Proofs.Lalr.Path

/-!
# Lookaheads

The lookaheads are the least sets that hold the end of the input for the first item and are closed
under the passages.  Seen from a state, they are large enough: what follows an item of the closure
is there when the item has moved over its next symbol.

## Main Definitions

* `Grammar.Arrives` — a terminal arrives at a kernel item of a state along the passages
* `Grammar.IsPassage` — what a passage takes from a state to the state behind a symbol
* `Grammar.IsLookaheads` — tables that have the kernel items of each state, with what arrives there

## Main Statements

* `Grammar.isLookaheads_lookaheads` — the lookaheads are what arrives
* `Grammar.follows_iff_of_mark` — one closure with the mark tells all closures
* `Grammar.IsLookaheads.mem_follow_of_follows` — what follows an item of a closure follows it behind
  its next symbol

## Design Notes

A mark stands for whatever follows a kernel item.  One closure with the mark tells which terminals
begin behind the item, and whether the item hands its own terminals on; so the closures of all sets
of terminals are known from it, and the passages between states can be found before any lookahead
is.
-/

namespace FrontEnd

/-! ### Tables of all states

The lookaheads have a table for each state, whose items are those of the kernel.  Adding terminals
keeps the items, so only the weight of all tables matters for the end of the loop. -/

/-- An entry, with terminals added if it is for the given item. -/
def extendEntry (item : Item) (extra : TokenSet) (e : Item × TokenSet) : Item × TokenSet :=
  if e.1 = item then (e.1, TokenSet.union e.2 extra) else e

/-- Adding terminals keeps the item. -/
theorem fst_extendEntry (item : Item) (extra : TokenSet) (e : Item × TokenSet) :
    (extendEntry item extra e).1 = e.1 := by
  unfold extendEntry
  split <;> rfl

/-- One item gets the terminals, and the others stay as they are. -/
theorem lookup_map_extendEntry (item : Item) (extra : TokenSet) (table : ItemTable) (i : Item) :
    (table.map (extendEntry item extra)).lookup i =
      (table.lookup i).map fun s => if i = item then TokenSet.union s extra else s := by
  induction table with
  | nil => rfl
  | cons e rest ih =>
    obtain ⟨k, s⟩ := e
    have hentry : extendEntry item extra (k, s) =
        (k, if k = item then TokenSet.union s extra else s) := by
      unfold extendEntry
      split <;> rfl
    rw [List.map_cons, hentry, lookup_cons_eq_ite, lookup_cons_eq_ite, ih]
    by_cases h : i = k
    · subst h
      rw [if_pos rfl, if_pos rfl]
      rfl
    · rw [if_neg h, if_neg h]

/-- When each change of an element makes it heavier or has no effect, so does the change of the
list. -/
theorem map_eq_or_sum_lt {α : Type} {weight : α → Nat} {f : α → α}
    (hf : ∀ a, f a = a ∨ weight a < weight (f a)) (l : List α) :
    l.map f = l ∨ (l.map weight).sum < ((l.map f).map weight).sum := by
  induction l with
  | nil => exact .inl rfl
  | cons a l ih =>
    rw [List.map_cons, List.map_cons, List.map_cons, List.sum_cons, List.sum_cons]
    rcases hf a with ha | ha <;> rcases ih with hl | hl
    · exact .inl (by rw [ha, hl])
    · exact .inr (by rw [ha]; omega)
    · exact .inr (by rw [hl]; omega)
    · exact .inr (by omega)

namespace Lookaheads

variable {g : Grammar} {a : ItemAutomaton} {l : Lookaheads}

/-- One state is changed. -/
theorem state_add (l : Lookaheads) (s : Nat) (item : Item) (extra : TokenSet) (s' : Nat) :
    (l.add s item extra).state s' =
      if s' = s then (l.state s').map (extendEntry item extra) else l.state s' := by
  have hadd : l.add s item extra = l.modify s (List.map (extendEntry item extra)) := rfl
  rw [hadd]
  unfold state
  rw [Array.getD_eq_getD_getElem?, Array.getD_eq_getD_getElem?, Array.getElem?_modify]
  by_cases h : s = s'
  · rw [if_pos h, if_pos h.symm]
    cases l[s']? <;> rfl
  · rw [if_neg h, if_neg (Ne.symm h)]

/-- An addition shows for the given item of the given state only. -/
theorem mem_follow_add {s s' : Nat} {item i : Item} {extra : TokenSet} {t : TokenId} :
    t ∈ (l.add s item extra).follow s' i ↔ t ∈ l.follow s' i ∨
      s' = s ∧ i = item ∧ item ∈ (l.state s).map Prod.fst ∧ t ∈ extra := by
  unfold follow
  rw [state_add]
  by_cases hs : s' = s
  · subst hs
    rw [if_pos rfl, lookup_map_extendEntry]
    by_cases hi : i = item
    · subst hi
      rw [← ItemTable.isSome_lookup_iff]
      cases (l.state s').lookup i with
      | none => simp
      | some old => simp [TokenSet.union, Sorted.mem_union]
    · cases (l.state s').lookup i <;> simp [hi]
  · rw [if_neg hs]
    simp [hs]

/-- How many terminals all sets have. -/
def weight (l : Lookaheads) : Nat :=
  (l.toList.map fun table => (table.map fun e => e.2.length).sum).sum

/-- An addition changes nothing, or the lookaheads get heavier. -/
theorem add_eq_or_weight_lt (l : Lookaheads) (s : Nat) (item : Item) (extra : TokenSet) :
    l.add s item extra = l ∨ l.weight < (l.add s item extra).weight := by
  unfold add weight
  rw [← Array.toList_inj, Array.toList_modify]
  refine modify_eq_or_sum_lt (fun table => map_eq_or_sum_lt ?_ table) _ _
  rintro ⟨i, t⟩
  dsimp only
  split
  · rcases Sorted.union_eq_or_length_lt TokenSet.before t extra with h | h
    · exact .inl (by rw [TokenSet.union, h])
    · exact .inr h
  · exact .inl rfl

/-- The tables have the kernel items of each state, and the sets hold terminals of right-hand sides,
or the end of the input, without repetitions. -/
structure Over (g : Grammar) (a : ItemAutomaton) (l : Lookaheads) : Prop where
  size_eq : l.size = a.size
  map_fst : ∀ s, (l.state s).map Prod.fst = a.kernel s
  nodup : ∀ s, ∀ e ∈ l.state s, e.2.Nodup
  subset : ∀ s, ∀ e ∈ l.state s,
    e.2 ⊆ TokenId.endOfInput :: usedTerminals g.productions.toList

/-- The tables stay those of the kernels. -/
theorem Over.add (h : l.Over g a) (s : Nat) (item : Item) {extra : TokenSet}
    (hextra : extra ⊆ TokenId.endOfInput :: usedTerminals g.productions.toList) :
    (l.add s item extra).Over g a := by
  have hmem : ∀ s', ∀ e ∈ (l.add s item extra).state s', ∃ e' ∈ l.state s', e = e' ∨
      e = (e'.1, TokenSet.union e'.2 extra) := by
    intro s' e he
    rw [state_add] at he
    split at he
    · obtain ⟨e', he', rfl⟩ := List.mem_map.1 he
      refine ⟨e', he', ?_⟩
      unfold extendEntry
      split
      · exact .inr rfl
      · exact .inl rfl
    · exact ⟨e, he, .inl rfl⟩
  refine ⟨?_, ?_, ?_, ?_⟩
  · unfold Lookaheads.add
    rw [Array.size_modify, h.size_eq]
  · intro s'
    rw [state_add, ← h.map_fst s']
    split
    · rw [List.map_map]
      exact List.map_congr_left fun e _ => fst_extendEntry item extra e
    · rfl
  · intro s' e he
    obtain ⟨e', he', rfl | rfl⟩ := hmem s' e he
    · exact h.nodup s' e he'
    · exact Sorted.nodup_union (h.nodup s' e' he') _
  · intro s' e he t ht
    obtain ⟨e', he', rfl | rfl⟩ := hmem s' e he
    · exact h.subset s' e he' ht
    · rcases (Sorted.mem_union _).1 ht with ht | ht
      · exact h.subset s' e' he' ht
      · exact hextra ht

/-- In the beginning the end of the input follows the items of the first state, and nothing follows
the others. -/
theorem state_initial (a : ItemAutomaton) (s : Nat) :
    (initial a).state s =
      (a.kernel s).map fun i => (i, if s = 0 then [TokenId.endOfInput] else []) := by
  unfold initial state ItemAutomaton.kernel
  rw [Array.getD_eq_getD_getElem?, Array.getD_eq_getD_getElem?, Array.getElem?_modify,
    Array.getElem?_map]
  by_cases h : s = 0
  · subst h
    cases a.kernels[0]? with
    | none => rfl
    | some kernel => simp
  · rw [if_neg (Ne.symm h)]
    cases a.kernels[s]? with
    | none => rfl
    | some kernel => simp [h]

/-- The first tables are those of the kernels. -/
theorem over_initial (g : Grammar) (a : ItemAutomaton) : (initial a).Over g a := by
  refine ⟨?_, ?_, ?_, ?_⟩
  · unfold initial
    rw [Array.size_modify, Array.size_map]
    rfl
  · intro s
    rw [state_initial, List.map_map]
    exact List.map_id _
  · intro s e he
    rw [state_initial] at he
    obtain ⟨i, -, rfl⟩ := List.mem_map.1 he
    dsimp only
    split
    · exact List.nodup_singleton _
    · exact List.nodup_nil
  · intro s e he t ht
    rw [state_initial] at he
    obtain ⟨i, -, rfl⟩ := List.mem_map.1 he
    dsimp only at ht
    split at ht
    · exact List.mem_cons.2 (.inl (List.mem_singleton.1 ht))
    · cases ht

/-- What is found for a kernel item is what its table has for it. -/
theorem Over.mem_follow_iff (h : l.Over g a) (hkernel : ∀ s, (a.kernel s).Nodup) {s : Nat}
    {i : Item} {t : TokenId} : t ∈ l.follow s i ↔ ∃ set, (i, set) ∈ l.state s ∧ t ∈ set := by
  have hnodup : ((l.state s).map Prod.fst).Nodup := h.map_fst s ▸ hkernel s
  unfold follow
  constructor
  · intro ht
    cases hset : (l.state s).lookup i with
    | none =>
      rw [hset] at ht
      cases ht
    | some set =>
      rw [hset] at ht
      exact ⟨set, (lookup_eq_some_iff_mem hnodup).1 hset, ht⟩
  · rintro ⟨set, hset, ht⟩
    rw [(lookup_eq_some_iff_mem hnodup).2 hset]
    exact ht

/-- Only terminals that are used, and the end of the input, can follow. -/
theorem Over.follow_subset (h : l.Over g a) (hkernel : ∀ s, (a.kernel s).Nodup) (s : Nat)
    (i : Item) : l.follow s i ⊆ TokenId.endOfInput :: usedTerminals g.productions.toList := by
  intro t ht
  obtain ⟨set, hset, ht⟩ := (h.mem_follow_iff hkernel).1 ht
  exact h.subset s _ hset ht

/-- The table of a state is its entry. -/
theorem state_eq_of_getElem? {s : Nat} {table : ItemTable} (h : l[s]? = some table) :
    l.state s = table := by
  unfold state
  rw [Array.getD_eq_getD_getElem?, h, Option.getD_some]

/-- The tables have as many entries as the kernels have items. -/
theorem Over.map_length (h : l.Over g a) :
    l.toList.map List.length = a.kernels.toList.map List.length := by
  have hkernels : l.toList.map (List.map Prod.fst) = a.kernels.toList := by
    apply List.ext_getElem?
    intro s
    rw [List.getElem?_map, Array.getElem?_toList, Array.getElem?_toList]
    by_cases hs : s < a.size
    · have hlt : s < Array.size l := h.size_eq ▸ hs
      have hl : l[s]? = some l[s] := Array.getElem?_eq_getElem hlt
      have ha : a.kernels[s]? = some a.kernels[s] := Array.getElem?_eq_getElem hs
      rw [hl, ha, Option.map_some, ← state_eq_of_getElem? hl, h.map_fst,
        Grammar.kernel_eq_of_getElem? ha]
    · rw [Array.getElem?_eq_none (h.size_eq ▸ Nat.not_lt.1 hs),
        Array.getElem?_eq_none (Nat.not_lt.1 hs)]
      rfl
  rw [← hkernels, List.map_map]
  apply List.map_congr_left
  intro table _
  show table.length = (table.map Prod.fst).length
  rw [List.length_map]

/-- The weight of all tables is bounded, since each entry has only so many lookaheads. -/
theorem Over.weight_le (h : l.Over g a) : l.weight ≤ bound g a := by
  set limit := totalLength g.productions.toList + 1 with hlimit
  have hset : ∀ s, ∀ e ∈ l.state s, e.2.length ≤ limit := by
    intro s e he
    have hlength := ((h.nodup s e he).subperm (h.subset s e he)).length_le
    have hused := length_usedTerminals_le g.productions.toList
    rw [List.length_cons] at hlength
    omega
  have htable : ∀ table ∈ l.toList, (table.map fun e => e.2.length).sum ≤ table.length * limit := by
    intro table htable
    obtain ⟨s, hs⟩ := Array.mem_iff_getElem?.1 (Array.mem_toList_iff.1 htable)
    have hle : ∀ n ∈ table.map fun e => e.2.length, n ≤ limit := by
      intro n hn
      obtain ⟨e, he, rfl⟩ := List.mem_map.1 hn
      exact hset s e (state_eq_of_getElem? hs ▸ he)
    apply (List.sum_le_card_nsmul _ _ hle).trans
    rw [List.length_map]
    exact Nat.le_refl _
  have hsum : l.weight ≤ (l.toList.map fun table => table.length * limit).sum :=
    List.sum_le_sum htable
  rw [List.sum_map_mul_right, h.map_length, ← List.length_flatten] at hsum
  exact hsum

end Lookaheads

namespace Grammar

variable {g : Grammar} {a : ItemAutomaton} {l : Lookaheads}

/-! ### The mark

No production has the mark, so it arrives at an item exactly when the item hands on whatever follows
the kernel item. -/

/-- No terminal has the number of the mark. -/
theorem ne_mark_of_mem_usedTerminals (h : g.WellFormed) {t : TokenId}
    (ht : t ∈ usedTerminals g.productions.toList) : t ≠ g.mark := by
  obtain ⟨p, hp, hmem⟩ := List.mem_flatMap.1 ht
  obtain ⟨s, hs, hterminal⟩ := List.mem_filterMap.1 hmem
  cases s with
  | nonterminal v => cases hterminal
  | terminal u =>
    obtain rfl := Option.some.inj hterminal
    have hlt : u < Int.ofNat g.numTerminals := (h.inRange p (Array.mem_toList_iff.1 hp) _ hs).2
    exact Int.ne_of_lt hlt

/-- The closure of one kernel item, with the mark in the place of what follows it. -/
abbrev marked (g : Grammar) (item : Item) : ItemTable := [(item, [g.mark])]

/-- The closure of a marked item has what follows from the mark. -/
theorem isClosure_marked (h : g.WellFormed) (item : Item) :
    g.IsClosure (g.marked item) (g.closureWithLookaheads (g.marked item)) :=
  closureWithLookaheads_spec h fun e he => by
    obtain rfl := List.mem_singleton.1 he
    exact List.nodup_singleton _

/-- The terminals that arrive at an item are those of right-hand sides, or the mark. -/
theorem mem_usedTerminals_of_follows (h : g.WellFormed) {item i : Item} {t : TokenId}
    (hi : g.Follows (g.marked item) i t) (ht : t ≠ g.mark) :
    t ∈ usedTerminals g.productions.toList := by
  induction hi with
  | kernel hi hmem =>
    obtain ⟨-, rfl⟩ := Prod.mk.inj (List.mem_singleton.1 hi)
    exact absurd (List.mem_singleton.1 hmem) ht
  | first _ _ hmem => exact firstOf_tail_subset h _ hmem
  | carry _ _ _ ih => exact ih ht

theorem closure_mono {kernel kernel' : List Item} (h : kernel ⊆ kernel') {i : Item}
    (hi : i ∈ g.closure kernel) : i ∈ g.closure kernel' := by
  obtain ⟨root, hroot, hpath⟩ := mem_closure_iff.1 hi
  exact mem_closure_iff.2 ⟨root, h hroot, hpath⟩

theorem exists_mem_closure_singleton {kernel : List Item} {i : Item} (h : i ∈ g.closure kernel) :
    ∃ k ∈ kernel, i ∈ g.closure [k] := by
  obtain ⟨root, hroot, hpath⟩ := mem_closure_iff.1 h
  exact ⟨root, hroot, mem_closure_iff.2 ⟨root, List.mem_singleton_self root, hpath⟩⟩

/-- **One closure with the mark tells all closures.**  A terminal follows an item when it does so
whatever follows some kernel item, or when the mark does and the terminal follows that item. -/
theorem follows_iff_of_mark (h : g.WellFormed) {kernel : ItemTable} {i : Item} {t : TokenId} :
    g.Follows kernel i t ↔ ∃ k s, (k, s) ∈ kernel ∧
      (t ≠ g.mark ∧ g.Follows (g.marked k) i t ∨ g.Follows (g.marked k) i g.mark ∧ t ∈ s) := by
  constructor
  · intro hi
    induction hi with
    | @kernel i s t hi ht =>
      exact ⟨i, s, hi, .inr ⟨.kernel (List.mem_singleton_self _) (List.mem_singleton_self _), ht⟩⟩
    | @first i j t hi hj ht =>
      obtain ⟨k, hk, hi⟩ := exists_mem_closure_singleton hi
      obtain ⟨⟨k, s⟩, he, rfl⟩ := List.mem_map.1 hk
      have hne := ne_mark_of_mem_usedTerminals h (firstOf_tail_subset h i ht)
      exact ⟨k, s, he, .inl ⟨hne, .first hi hj ht⟩⟩
    | carry _ hj hnull ih =>
      obtain ⟨k, s, he, hcases⟩ := ih
      refine ⟨k, s, he, ?_⟩
      rcases hcases with ⟨hne, hi⟩ | ⟨hi, ht⟩
      · exact .inl ⟨hne, hi.carry hj hnull⟩
      · exact .inr ⟨hi.carry hj hnull, ht⟩
  · rintro ⟨k, s, he, hcases⟩
    -- by induction on the way of what follows in the closure with the mark, be it the mark or not
    have hboth : ∀ u, g.Follows (g.marked k) i u →
        (u ≠ g.mark → g.Follows kernel i u) ∧ (u = g.mark → ∀ t ∈ s, g.Follows kernel i t) := by
      intro u hi
      clear hcases
      induction hi with
      | kernel hi hu =>
        obtain ⟨rfl, rfl⟩ := Prod.mk.inj (List.mem_singleton.1 hi)
        exact ⟨fun hne => absurd (List.mem_singleton.1 hu) hne, fun _ t ht => .kernel he ht⟩
      | @first i j u hi hj hu =>
        have hne := ne_mark_of_mem_usedTerminals h (firstOf_tail_subset h i hu)
        have hsub : (g.marked k).map Prod.fst ⊆ kernel.map Prod.fst := by
          intro k' hk'
          obtain rfl := List.mem_singleton.1 hk'
          exact List.mem_map_of_mem (f := Prod.fst) he
        exact ⟨fun _ => .first (closure_mono hsub hi) hj hu, fun heq => absurd heq hne⟩
      | carry _ hj hnull ih =>
        exact ⟨fun hne => (ih.1 hne).carry hj hnull, fun heq t ht => (ih.2 heq t ht).carry hj hnull⟩
    rcases hcases with ⟨hne, hi⟩ | ⟨hi, ht⟩
    · exact (hboth t hi).1 hne
    · exact (hboth g.mark hi).2 rfl t ht

/-! ### Passages

A passage leads from a kernel item over a symbol of its closure to the kernel item behind the
symbol.  It tells what arrives there in any case, and whether what follows the item is carried
on. -/

/-- What a passage takes from a state to the state behind a symbol: the item of the closure that
moves over the symbol, with what follows it in any case, and whether what follows the kernel item
does. -/
structure IsPassage (g : Grammar) (a : ItemAutomaton) (p : Passage) (i : Item) (x : Symbol) :
    Prop where
  state_lt : p.state < a.size
  mem_kernel : p.item ∈ a.kernel p.state
  mem_closure : i ∈ g.closure [p.item]
  next : g.nextSymbol? i = some x
  target : a.target? p.state x = some p.target
  arrival : p.arrival = i.advance
  mem_always : ∀ t, t ∈ p.always ↔ t ≠ g.mark ∧ g.Follows (g.marked p.item) i t
  carries : p.carries = true ↔ g.Follows (g.marked p.item) i g.mark

/-- The passage of an entry of a closure with the mark. -/
theorem isPassage_of_mem_closure (h : g.WellFormed) {s t : Nat} {k i : Item} {x : Symbol}
    {set : TokenSet} (hs : s < a.size) (hk : k ∈ a.kernel s)
    (hi : (i, set) ∈ g.closureWithLookaheads (g.marked k)) (hnext : g.nextSymbol? i = some x)
    (ht : a.target? s x = some t) :
    g.IsPassage a ⟨s, k, t, i.advance, set.filter fun t => t != g.mark, set.contains g.mark⟩
      i x := by
  have hclosure := isClosure_marked h k
  have hfollows := hclosure.follows_iff i set hi
  refine ⟨hs, hk, (hclosure.exists_mem_iff i).1 ⟨set, hi⟩, hnext, ht, rfl, ?_, ?_⟩
  · intro u
    rw [← hfollows, List.mem_filter, bne_iff_ne, and_comm]
  · rw [← hfollows]
    exact List.contains_iff_mem

/-- The passages of an item, written out. -/
theorem mem_passagesFrom {s : Nat} {k : Item} {p : Passage} :
    p ∈ g.passagesFrom a s k ↔ ∃ i set x t, (i, set) ∈ g.closureWithLookaheads (g.marked k) ∧
      g.nextSymbol? i = some x ∧ a.target? s x = some t ∧
      p = ⟨s, k, t, i.advance, set.filter fun t => t != g.mark, set.contains g.mark⟩ := by
  unfold passagesFrom
  rw [List.mem_filterMap]
  constructor
  · rintro ⟨⟨i, set⟩, hi, hp⟩
    obtain ⟨t, ht, rfl⟩ := Option.map_eq_some_iff.1 hp
    obtain ⟨x, hx, ht⟩ := Option.bind_eq_some_iff.1 ht
    exact ⟨i, set, x, t, hi, hx, ht, rfl⟩
  · rintro ⟨i, set, x, t, hi, hx, ht, rfl⟩
    refine ⟨(i, set), hi, ?_⟩
    dsimp only
    rw [hx, Option.bind_some, ht]
    rfl

/-- Each passage that is listed is one in this sense. -/
theorem exists_isPassage (h : g.WellFormed) {p : Passage} (hp : p ∈ g.passages a) :
    ∃ i x, g.IsPassage a p i x := by
  obtain ⟨s, hs, hp⟩ := List.mem_flatMap.1 hp
  obtain ⟨k, hk, hp⟩ := List.mem_flatMap.1 hp
  obtain ⟨i, set, x, t, hi, hx, ht, rfl⟩ := mem_passagesFrom.1 hp
  exact ⟨i, x, isPassage_of_mem_closure h (List.mem_range.1 hs) hk hi hx ht⟩

/-- There is a passage for each kernel item and each move of an item of its closure. -/
theorem exists_mem_passages (h : g.WellFormed) {s t : Nat} {k i : Item} {x : Symbol}
    (hs : s < a.size) (hk : k ∈ a.kernel s) (hi : i ∈ g.closure [k])
    (hnext : g.nextSymbol? i = some x) (ht : a.target? s x = some t) :
    ∃ p ∈ g.passages a, g.IsPassage a p i x ∧ p.state = s ∧ p.item = k ∧ p.target = t := by
  obtain ⟨set, hset⟩ := ((isClosure_marked h k).exists_mem_iff i).2 hi
  refine ⟨_, ?_, isPassage_of_mem_closure h hs hk hset hnext ht, rfl, rfl, rfl⟩
  exact List.mem_flatMap.2 ⟨s, List.mem_range.2 hs,
    List.mem_flatMap.2 ⟨k, hk, mem_passagesFrom.2 ⟨i, set, x, t, hset, hnext, ht, rfl⟩⟩⟩

/-- The arrival of a passage is a kernel item of the state behind. -/
theorem IsPassage.arrival_mem (h : g.IsAutomaton a) {p : Passage} {i : Item} {x : Symbol}
    (hp : g.IsPassage a p i x) : p.arrival ∈ a.kernel p.target := by
  have hmem : i ∈ g.closure (a.kernel p.state) :=
    closure_mono (List.cons_subset.2 ⟨hp.mem_kernel, List.nil_subset _⟩) hp.mem_closure
  exact (h.mem_kernel p.state x p.target hp.target _).2 ⟨i, hmem, hp.next, hp.arrival⟩

/-! ### What arrives

Terminals are generated once, and then carried until nothing changes.  The invariant says that no
terminal is there that does not arrive; at the end all that arrives is there. -/

/-- A terminal arrives at a kernel item of a state: the end of the input at the first item, what a
passage takes along in any case, and what a passage carries from an item where it has arrived. -/
inductive Arrives (g : Grammar) (a : ItemAutomaton) : Nat → Item → TokenId → Prop
  | initial : Arrives g a 0 (Item.start g.acceptProduction) TokenId.endOfInput
  | always {p : Passage} {t : TokenId} : p ∈ g.passages a → t ∈ p.always →
    Arrives g a p.target p.arrival t
  | carry {p : Passage} {t : TokenId} : p ∈ g.passages a → p.carries = true →
    Arrives g a p.state p.item t → Arrives g a p.target p.arrival t

/-- Tables with the kernel items of each state and exactly the terminals that arrive there. -/
structure IsLookaheads (g : Grammar) (a : ItemAutomaton) (l : Lookaheads) : Prop where
  isOver : l.Over g a
  follow_iff : ∀ s i t, t ∈ l.follow s i ↔ g.Arrives a s i t

/-- What each round keeps: the terminals found have arrived, and those that arrive in any case have
been found. -/
structure LookaheadInvariant (g : Grammar) (a : ItemAutomaton) (l : Lookaheads) : Prop where
  isOver : l.Over g a
  arrives : ∀ s i t, t ∈ l.follow s i → g.Arrives a s i t
  initial : TokenId.endOfInput ∈ l.follow 0 (Item.start g.acceptProduction)
  always : ∀ p ∈ g.passages a, ∀ t ∈ p.always, t ∈ l.follow p.target p.arrival

section Fixpoint

variable {p : Passage} {s : Nat} {i : Item} {t : TokenId}

/-- A passage generates its own terminals at its end. -/
theorem mem_follow_generate (h : l.Over g a) (hp : p.arrival ∈ a.kernel p.target) :
    t ∈ (p.generate l).follow s i ↔
      t ∈ l.follow s i ∨ s = p.target ∧ i = p.arrival ∧ t ∈ p.always := by
  unfold Passage.generate
  rw [Lookaheads.mem_follow_add, h.map_fst]
  simp [hp]

/-- A passage that carries brings what follows its item to its end. -/
theorem mem_follow_carry (h : l.Over g a) (hp : p.arrival ∈ a.kernel p.target) :
    t ∈ (p.carry l).follow s i ↔ t ∈ l.follow s i ∨
      s = p.target ∧ i = p.arrival ∧ p.carries = true ∧ t ∈ l.follow p.state p.item := by
  unfold Passage.carry
  split
  · next hcarries =>
    rw [Lookaheads.mem_follow_add, h.map_fst]
    simp [hp, hcarries]
  · next hcarries => simp [hcarries]

/-- What is generated are terminals of the grammar. -/
theorem always_subset (hg : g.WellFormed) (hp : p ∈ g.passages a) :
    p.always ⊆ TokenId.endOfInput :: usedTerminals g.productions.toList := by
  obtain ⟨i, x, hpassage⟩ := exists_isPassage hg hp
  intro t ht
  obtain ⟨hne, hfollows⟩ := (hpassage.mem_always t).1 ht
  exact List.mem_cons_of_mem _ (mem_usedTerminals_of_follows hg hfollows hne)

theorem over_carry (ha : g.IsAutomaton a) (h : l.Over g a) (p : Passage) :
    (p.carry l).Over g a := by
  unfold Passage.carry
  split
  · exact h.add p.target p.arrival (h.follow_subset ha.nodup_kernel p.state p.item)
  · exact h

/-- After the first round, what is there is what was there and what arrives in any case. -/
theorem foldl_generate_spec (hg : g.WellFormed) (ha : g.IsAutomaton a) {passages : List Passage}
    (hpassages : passages ⊆ g.passages a) (h : l.Over g a) :
    (passages.foldl Passage.generate l).Over g a ∧ ∀ s i t,
      t ∈ (passages.foldl Passage.generate l).follow s i ↔ t ∈ l.follow s i ∨
        ∃ p ∈ passages, s = p.target ∧ i = p.arrival ∧ t ∈ p.always := by
  induction passages generalizing l with
  | nil => exact ⟨h, fun s i t => by simp⟩
  | cons p passages ih =>
    obtain ⟨hp, hrest⟩ := List.cons_subset.1 hpassages
    obtain ⟨j, x, hpassage⟩ := exists_isPassage hg hp
    have hstep : (p.generate l).Over g a := h.add p.target p.arrival (always_subset hg hp)
    obtain ⟨hover, hmem⟩ := ih hrest hstep
    refine ⟨hover, fun s i t => ?_⟩
    have hgenerate := mem_follow_generate (s := s) (i := i) (t := t) h (hpassage.arrival_mem ha)
    rw [List.foldl_cons, hmem, hgenerate, or_assoc]
    simp

/-- What is generated arrives. -/
theorem lookaheadInvariant_generate (hg : g.WellFormed) (ha : g.IsAutomaton a) :
    g.LookaheadInvariant a
      ((g.passages a).foldl Passage.generate (Lookaheads.initial a)) := by
  obtain ⟨hover, hmem⟩ := foldl_generate_spec hg ha (List.Subset.refl (g.passages a))
    (Lookaheads.over_initial g a)
  have hinitial : ∀ s i t, t ∈ (Lookaheads.initial a).follow s i ↔
      s = 0 ∧ i = Item.start g.acceptProduction ∧ t = TokenId.endOfInput := by
    intro s i t
    rw [(Lookaheads.over_initial g a).mem_follow_iff ha.nodup_kernel, Lookaheads.state_initial]
    by_cases hs : s = 0
    · subst hs
      rw [ha.kernel_zero]
      simp [and_assoc]
    · simp [hs]
  refine ⟨hover, ?_, ?_, ?_⟩
  · intro s i t ht
    rcases (hmem s i t).1 ht with hfirst | ⟨p, hp, rfl, rfl, halways⟩
    · obtain ⟨rfl, rfl, rfl⟩ := (hinitial s i t).1 hfirst
      exact .initial
    · exact .always hp halways
  · exact (hmem _ _ _).2 (.inl ((hinitial _ _ _).2 ⟨rfl, rfl, rfl⟩))
  · exact fun p hp t ht => (hmem _ _ _).2 (.inr ⟨p, hp, rfl, rfl, ht⟩)

/-- What is carried arrives. -/
theorem LookaheadInvariant.carry (ha : g.IsAutomaton a) (hg : g.WellFormed)
    (h : g.LookaheadInvariant a l) (hp : p ∈ g.passages a) :
    g.LookaheadInvariant a (p.carry l) := by
  obtain ⟨j, x, hpassage⟩ := exists_isPassage hg hp
  have hmem : ∀ s i t, t ∈ (p.carry l).follow s i ↔ t ∈ l.follow s i ∨
      s = p.target ∧ i = p.arrival ∧ p.carries = true ∧ t ∈ l.follow p.state p.item :=
    fun s i t => mem_follow_carry h.isOver (hpassage.arrival_mem ha)
  refine ⟨over_carry ha h.isOver p, ?_, (hmem _ _ _).2 (.inl h.initial),
    fun q hq t ht => (hmem _ _ _).2 (.inl (h.always q hq t ht))⟩
  intro s i t ht
  rcases (hmem s i t).1 ht with hold | ⟨rfl, rfl, hcarries, hfrom⟩
  · exact h.arrives s i t hold
  · exact .carry hp hcarries (h.arrives _ _ t hfrom)

/-- A passage changes nothing, or the lookaheads get heavier. -/
theorem carry_eq_or_weight_lt (l : Lookaheads) (p : Passage) :
    p.carry l = l ∨ l.weight < (p.carry l).weight := by
  unfold Passage.carry
  split
  · exact l.add_eq_or_weight_lt _ _ _
  · exact .inl rfl

/-- **The lookaheads are what arrives.** -/
theorem isLookaheads_lookaheads (hg : g.WellFormed) (ha : g.IsAutomaton a) :
    g.IsLookaheads a (g.lookaheads a) := by
  -- the rounds end with tables that no passage changes, so all that arrives is there
  obtain ⟨hinvariant, hstable⟩ : g.LookaheadInvariant a (g.lookaheads a) ∧
      (g.passages a).foldl Passage.carry (g.lookaheads a) = g.lookaheads a := by
    refine iterateUntilStable_induction (P := g.LookaheadInvariant a) Lookaheads.weight
      (Lookaheads.bound g a) ?_ ?_ ?_ ?_ (by omega)
    · exact fun l h => List.foldlRecOn _ _ h fun l h p hp => h.carry ha hg hp
    · exact fun l _ hne =>
        (foldl_eq_or_size_lt Lookaheads.weight carry_eq_or_weight_lt _ l).resolve_left hne
    · exact fun l h => h.isOver.weight_le
    · exact lookaheadInvariant_generate hg ha
  have hcarry := eq_of_foldl_eq Lookaheads.weight carry_eq_or_weight_lt hstable
  refine ⟨hinvariant.isOver, fun s i t => ⟨hinvariant.arrives s i t, ?_⟩⟩
  intro h
  induction h with
  | initial => exact hinvariant.initial
  | always hp ht => exact hinvariant.always _ hp _ ht
  | @carry p t hp hcarries _ ih =>
    obtain ⟨j, x, hpassage⟩ := exists_isPassage hg hp
    rw [← hcarry p hp, mem_follow_carry hinvariant.isOver (hpassage.arrival_mem ha)]
    exact .inr ⟨rfl, rfl, hcarries, ih⟩

end Fixpoint

/-! ### What follows in a state

Behind its next symbol an item has at least what has followed it.  This closes the sets along the
moves of the automaton. -/

namespace IsLookaheads

/-- What follows an item stands in the table of its state. -/
theorem mem_follow_iff (h : g.IsLookaheads a l) (ha : g.IsAutomaton a) {s : Nat} {i : Item}
    {t : TokenId} : t ∈ l.follow s i ↔ ∃ set, (i, set) ∈ l.state s ∧ t ∈ set :=
  h.isOver.mem_follow_iff ha.nodup_kernel

/-- The closure of the table of a state is exact. -/
theorem isClosure (h : g.IsLookaheads a l) (hg : g.WellFormed) (s : Nat) :
    g.IsClosure (l.state s) (g.closureWithLookaheads (l.state s)) :=
  closureWithLookaheads_spec hg (h.isOver.nodup s)

/-- What follows a kernel item follows it in the closure. -/
theorem follows_of_mem_follow (h : g.IsLookaheads a l) (ha : g.IsAutomaton a) {s : Nat} {i : Item}
    {t : TokenId} (ht : t ∈ l.follow s i) : g.Follows (l.state s) i t := by
  obtain ⟨set, hset, ht⟩ := (h.mem_follow_iff ha).1 ht
  exact .kernel hset ht

/-- **What follows an item of a closure follows it behind its next symbol.** -/
theorem mem_follow_of_follows (h : g.IsLookaheads a l) (hg : g.WellFormed) (ha : g.IsAutomaton a)
    {s s' : Nat} {i : Item} {x : Symbol} {t : TokenId} (hi : g.Follows (l.state s) i t)
    (hnext : g.nextSymbol? i = some x) (hs' : a.target? s x = some s') :
    t ∈ l.follow s' i.advance := by
  obtain ⟨k, set, hk, hcases⟩ := (follows_iff_of_mark hg).1 hi
  have hkernel : k ∈ a.kernel s := h.isOver.map_fst s ▸ List.mem_map_of_mem hk
  have hclosure : i ∈ g.closure [k] := by
    rcases hcases with ⟨-, hi⟩ | ⟨hi, -⟩ <;> exact hi.mem_closure
  -- the passage of the kernel item that the item comes from takes the terminal along
  obtain ⟨p, hp, hpassage, rfl, rfl, rfl⟩ :=
    exists_mem_passages hg (ha.target_lt s x s' hs').1 hkernel hclosure hnext hs'
  rw [h.follow_iff, ← hpassage.arrival]
  rcases hcases with ⟨hne, hi⟩ | ⟨hi, ht⟩
  · exact .always hp ((hpassage.mem_always t).2 ⟨hne, hi⟩)
  · refine .carry hp (hpassage.carries.2 hi) ((h.follow_iff _ _ _).1 ?_)
    exact (h.mem_follow_iff ha).2 ⟨set, hk, ht⟩

end IsLookaheads

end Grammar

end FrontEnd
