import FrontEnd.Worklist
import Mathlib.Data.Finset.Card
import Mathlib.Data.Finset.Filter
import Mathlib.Logic.Relation

/-!
# Worklists end, and end saturated

Every loop of this library that is bounded by a number is bounded generously enough.  The argument
is always the same: each item that is absorbed makes the state grow, the state cannot grow beyond
a limit, and the bound covers what is left up to this limit.  It is made once here, for worklists
and for fixed points.

## Main Definitions

* `Worklist.Finishes` — a worklist without a bound, up to its last item
* `Stabilizes` — rounds without a bound, up to the one that has no effect

## Main Statements

* `Worklist.run_induction` — what every absorbed or skipped item keeps holds at the end, where no
  item is left
* `Worklist.exists_finishes_run` — a worklist without a bound ends with the same result
* `Worklist.Search.mem_run_iff` — a search finds exactly the nodes that can be reached
* `eq_of_foldl_eq` — when a round of growing steps changes nothing, no step does
* `iterateUntilStable_induction` — what every round keeps holds of the result, which is stable
* `exists_stabilizes_iterateUntilStable` — rounds without a bound end with the same result
-/

namespace FrontEnd

namespace Worklist

variable {σ α : Type} {absorb : σ → α → Option (σ × List α)}

section Induction

variable {P : σ → List α → Prop}

/-- When no entry of the worklist is taken, they are all skipped, and what is kept by skipping holds
with an empty worklist. -/
theorem next?_eq_none
    (hskip : ∀ s a rest, P s (a :: rest) → absorb s a = none → P s rest)
    {s : σ} {todo : List α} (hP : P s todo) (h : next? absorb s todo = none) : P s [] := by
  induction todo with
  | nil => exact hP
  | cons a rest ih =>
    cases ha : absorb s a with
    | none => exact ih (hskip _ _ _ hP ha) (by simpa [next?, ha] using h)
    | some result => simp [next?, ha] at h

/-- When an entry is taken, those in front of it have been skipped.  What is kept by skipping holds
just in front of it. -/
theorem next?_eq_some
    (hskip : ∀ s a rest, P s (a :: rest) → absorb s a = none → P s rest)
    {s s' : σ} {todo more rest : List α} (hP : P s todo)
    (h : next? absorb s todo = some (s', more, rest)) :
    ∃ a, absorb s a = some (s', more) ∧ P s (a :: rest) := by
  induction todo with
  | nil => cases h
  | cons a todo ih =>
    cases ha : absorb s a with
    | none => exact ih (hskip _ _ _ hP ha) (by simpa [next?, ha] using h)
    | some result =>
      obtain ⟨t, found⟩ := result
      simp only [next?, ha, Option.some.injEq, Prod.mk.injEq] at h
      obtain ⟨rfl, rfl, rfl⟩ := h
      exact ⟨a, ha, hP⟩

/-- **Induction along a worklist.**  A property of the state and of the items left that every step
keeps holds at the end, and no item is left there.  The bound may run out only where it covers the
way from the size of the state to the limit of all sizes, and then nothing can be absorbed. -/
theorem run_induction (size : σ → Nat) (limit : Nat)
    (hskip : ∀ s a rest, P s (a :: rest) → absorb s a = none → P s rest)
    (htake : ∀ s a rest s' more, P s (a :: rest) → absorb s a = some (s', more) →
      P s' (more ++ rest) ∧ size s < size s')
    (hlimit : ∀ s todo, P s todo → size s ≤ limit)
    {bound : Nat} {todo : List α} {s : σ} (hP : P s todo) (hbound : limit ≤ size s + bound) :
    P (run absorb bound todo s) [] := by
  induction bound generalizing s todo with
  | zero =>
    cases h : next? absorb s todo with
    | none => exact next?_eq_none hskip hP h
    | some result =>
      obtain ⟨s', more, rest⟩ := result
      obtain ⟨a, ha, hrest⟩ := next?_eq_some hskip hP h
      obtain ⟨hP', hlt⟩ := htake _ _ _ _ _ hrest ha
      have hle := hlimit _ _ hP'
      omega
  | succ bound ih =>
    unfold run
    cases h : next? absorb s todo with
    | none => exact next?_eq_none hskip hP h
    | some result =>
      obtain ⟨s', more, rest⟩ := result
      obtain ⟨a, ha, hrest⟩ := next?_eq_some hskip hP h
      obtain ⟨hP', hlt⟩ := htake _ _ _ _ _ hrest ha
      exact ih hP' (by omega)

/-- Items are taken until none is left, however many there are: how many are absorbed, and the last
state. -/
inductive Finishes (absorb : σ → α → Option (σ × List α)) : Nat → List α → σ → σ → Prop
  | done {s : σ} : Finishes absorb 0 [] s s
  | skip {n : Nat} {a : α} {rest : List α} {s last : σ} :
    absorb s a = none → Finishes absorb n rest s last → Finishes absorb n (a :: rest) s last
  | take {n : Nat} {a : α} {more rest : List α} {s s' last : σ} :
    absorb s a = some (s', more) → Finishes absorb n (more ++ rest) s' last →
      Finishes absorb (n + 1) (a :: rest) s last

/-- **A worklist without a bound ends**, with what the bounded one leads to: each item that is
absorbed makes the state grow. -/
theorem exists_finishes_run (size : σ → Nat) (limit : Nat)
    (hskip : ∀ s a rest, P s (a :: rest) → absorb s a = none → P s rest)
    (htake : ∀ s a rest s' more, P s (a :: rest) → absorb s a = some (s', more) →
      P s' (more ++ rest) ∧ size s < size s')
    (hlimit : ∀ s todo, P s todo → size s ≤ limit)
    {bound : Nat} {todo : List α} {s : σ} (hP : P s todo) (hbound : limit ≤ size s + bound) :
    ∃ n, size s + n ≤ limit ∧ Finishes absorb n todo s (run absorb bound todo s) := by
  -- what every step keeps: the items absorbed so far stand in front of those of the rest
  let Q (t : σ) (left : List α) : Prop := P t left ∧ ∃ m, size s + m ≤ size t ∧
    ∀ n last, Finishes absorb n left t last → Finishes absorb (n + m) todo s last
  have hfinal : Q (run absorb bound todo s) [] := by
    refine run_induction size limit ?_ ?_ (fun t left h => hlimit t left h.1)
      ⟨hP, 0, Nat.le_refl _, fun _ _ h => h⟩ hbound
    · rintro t a rest ⟨hPt, m, hm, hruns⟩ ha
      exact ⟨hskip t a rest hPt ha, m, hm, fun n last h => hruns n last (.skip ha h)⟩
    · rintro t a rest t' more ⟨hPt, m, hm, hruns⟩ ha
      obtain ⟨hPt', hlt⟩ := htake t a rest t' more hPt ha
      refine ⟨⟨hPt', m + 1, by omega, fun n last h => ?_⟩, hlt⟩
      rw [Nat.add_comm m 1, ← Nat.add_assoc]
      exact hruns (n + 1) last (.take ha h)
  obtain ⟨hPfinal, m, hm, hruns⟩ := hfinal
  have hfinishes := hruns 0 _ .done
  rw [Nat.zero_add] at hfinishes
  exact ⟨m, hm.trans (hlimit _ _ hPfinal), hfinishes⟩

end Induction

/-! ## Reachable nodes -/

section Reach

variable {successors : α → List α} {roots : List α} {mem : σ → α → Prop}

/-- A node that some root leads to along successors. -/
def Reachable (successors : α → List α) (roots : List α) (a : α) : Prop :=
  ∃ root ∈ roots, Relation.ReflTransGen (fun a b => b ∈ successors a) root a

/-- The roots are reachable. -/
theorem Reachable.root {a : α} (h : a ∈ roots) : Reachable successors roots a := ⟨a, h, .refl⟩

/-- A successor of what is reachable is reachable. -/
theorem Reachable.successor {a b : α} (h : Reachable successors roots a)
    (hb : b ∈ successors a) : Reachable successors roots b := by
  obtain ⟨root, hroot, hpath⟩ := h
  exact ⟨root, hroot, hpath.tail hb⟩

/-- A worklist that searches a graph: its state is a set of nodes, in which a node is entered when
it is not there, and its successors come up. -/
structure Search (absorb : σ → α → Option (σ × List α)) (mem : σ → α → Prop)
    (successors : α → List α) : Prop where
  skip : ∀ {s a}, absorb s a = none → mem s a
  take : ∀ {s a s' more}, absorb s a = some (s', more) →
    ¬ mem s a ∧ more = successors a ∧ ∀ b, mem s' b ↔ b = a ∨ mem s b

/-- What a search keeps: the nodes seen and those left are reachable, and a successor of a node
seen, or a root, is seen or left. -/
structure SearchInvariant (mem : σ → α → Prop) (successors : α → List α) (roots : List α)
    (s : σ) (todo : List α) : Prop where
  reachable : ∀ a, mem s a ∨ a ∈ todo → Reachable successors roots a
  successor : ∀ a, mem s a → ∀ b ∈ successors a, mem s b ∨ b ∈ todo
  root : ∀ a ∈ roots, mem s a ∨ a ∈ todo

/-- An element that is known already can be dropped from the worklist: it has been taken before, and
its successors are known or waiting. -/
theorem SearchInvariant.skip {s : σ} {rest : List α} {a : α}
    (h : SearchInvariant mem successors roots s (a :: rest)) (ha : mem s a) :
    SearchInvariant mem successors roots s rest := by
  have settled : ∀ b, mem s b ∨ b ∈ a :: rest → mem s b ∨ b ∈ rest := by
    rintro b (hb | hb)
    · exact .inl hb
    · rcases List.mem_cons.1 hb with rfl | hb
      · exact .inl ha
      · exact .inr hb
  exact ⟨fun b hb => h.reachable b (hb.imp_right (List.mem_cons_of_mem a)),
    fun b hb c hc => settled c (h.successor b hb c hc), fun b hb => settled b (h.root b hb)⟩

/-- An element that is taken is known from now on, and its successors wait. -/
theorem SearchInvariant.take {s s' : σ} {rest : List α} {a : α}
    (h : SearchInvariant mem successors roots s (a :: rest))
    (hs : ∀ b, mem s' b ↔ b = a ∨ mem s b) :
    SearchInvariant mem successors roots s' (successors a ++ rest) := by
  have moved : ∀ b, mem s b ∨ b ∈ a :: rest → mem s' b ∨ b ∈ successors a ++ rest := by
    rintro b (hb | hb)
    · exact .inl ((hs b).2 (.inr hb))
    · rcases List.mem_cons.1 hb with rfl | hb
      · exact .inl ((hs b).2 (.inl rfl))
      · exact .inr (List.mem_append_right _ hb)
  have hreach := h.reachable a (.inr List.mem_cons_self)
  refine ⟨?_, ?_, fun b hb => moved b (h.root b hb)⟩
  · rintro b (hb | hb)
    · rcases (hs b).1 hb with rfl | hb
      · exact hreach
      · exact h.reachable b (.inl hb)
    · rcases List.mem_append.1 hb with hb | hb
      · exact hreach.successor hb
      · exact h.reachable b (.inr (List.mem_cons_of_mem a hb))
  · intro b hb c hc
    rcases (hs b).1 hb with rfl | hb
    · exact .inr (List.mem_append_left _ hc)
    · exact moved c (h.successor b hb c hc)

/-- In the beginning nothing is known, and the roots wait. -/
theorem searchInvariant_start {s : σ} (hs : ∀ a, ¬ mem s a) :
    SearchInvariant mem successors roots s roots :=
  ⟨fun b hb => .root (hb.resolve_left (hs b)), fun b hb => absurd hb (hs b), fun _ hb => .inr hb⟩

open scoped Classical in
/-- A node that is entered is one more of the nodes that can be reached. -/
theorem Search.take_invariant (hsearch : Search absorb mem successors) {nodes : Finset α}
    (hnodes : ∀ a, Reachable successors roots a → a ∈ nodes) {s s' : σ} {a : α}
    {more rest : List α} (h : SearchInvariant mem successors roots s (a :: rest))
    (ha : absorb s a = some (s', more)) :
    SearchInvariant mem successors roots s' (more ++ rest) ∧
      (nodes.filter (mem s)).card < (nodes.filter (mem s')).card := by
  obtain ⟨hnew, rfl, hmem⟩ := hsearch.take ha
  refine ⟨h.take hmem, Finset.card_lt_card (Finset.ssubset_iff_of_subset ?_ |>.2 ?_)⟩
  · exact Finset.monotone_filter_right _ fun c _ hc => (hmem c).2 (.inr hc)
  · have ha := hnodes a (h.reachable a (.inr List.mem_cons_self))
    exact ⟨a, Finset.mem_filter.2 ⟨ha, (hmem a).2 (.inl rfl)⟩,
      fun h => hnew (Finset.mem_filter.1 h).2⟩

/-- **A search finds exactly the nodes that can be reached**, when its bound covers them all. -/
theorem Search.mem_run_iff (hsearch : Search absorb mem successors) (nodes : Finset α)
    (hnodes : ∀ a, Reachable successors roots a → a ∈ nodes) {bound : Nat}
    (hbound : nodes.card ≤ bound) {s : σ} (hs : ∀ a, ¬ mem s a) {a : α} :
    mem (run absorb bound roots s) a ↔ Reachable successors roots a := by
  classical
  have hfinal : SearchInvariant mem successors roots (run absorb bound roots s) [] :=
    run_induction (fun s => (nodes.filter (mem s)).card) nodes.card
      (fun _ _ _ h hb => h.skip (hsearch.skip hb))
      (fun _ _ _ _ _ h hb => hsearch.take_invariant hnodes h hb)
      (fun _ _ _ => Finset.card_filter_le _ _) (searchInvariant_start hs) (by omega)
  constructor
  · exact fun h => hfinal.reachable a (.inl h)
  · rintro ⟨root, hroot, hpath⟩
    have hseen : mem (run absorb bound roots s) root := by simpa using hfinal.root root hroot
    induction hpath with
    | refl => exact hseen
    | tail _ hstep ih => simpa using hfinal.successor _ ih _ hstep

/-- A search without a bound ends, and enters no more nodes than can be reached. -/
theorem Search.exists_finishes (hsearch : Search absorb mem successors) (nodes : Finset α)
    (hnodes : ∀ a, Reachable successors roots a → a ∈ nodes) {bound : Nat}
    (hbound : nodes.card ≤ bound) {s : σ} (hs : ∀ a, ¬ mem s a) :
    ∃ n, n ≤ nodes.card ∧ Finishes absorb n roots s (run absorb bound roots s) := by
  classical
  have hends : ∃ n, (nodes.filter (mem s)).card + n ≤ nodes.card ∧
      Finishes absorb n roots s (run absorb bound roots s) :=
    exists_finishes_run (fun s => (nodes.filter (mem s)).card) nodes.card
      (fun _ _ _ h hb => h.skip (hsearch.skip hb))
      (fun _ _ _ _ _ h hb => hsearch.take_invariant hnodes h hb)
      (fun _ _ _ => Finset.card_filter_le _ _) (searchInvariant_start hs) (by omega)
  obtain ⟨n, hn, hfinishes⟩ := hends
  exact ⟨n, by omega, hfinishes⟩

/-- Enters a node into those seen, unless it is there. -/
def enter [BEq α] (successors : α → List α) (seen : List α) (a : α) : Option (List α × List α) :=
  if seen.contains a then none else some (a :: seen, successors a)

/-- A list of what has been seen makes a search: the empty worklist is left when nothing new is
found. -/
theorem search_enter [DecidableEq α] (successors : α → List α) :
    Search (enter successors) (fun seen a => a ∈ seen) successors := by
  refine ⟨fun {seen b} h => ?_, fun {seen b seen' more} h => ?_⟩
  · by_contra hnot
    simp [enter, hnot] at h
  by_cases hmem : b ∈ seen
  · simp [enter, hmem] at h
  · simp only [enter, List.contains_eq_mem, hmem, decide_false, Bool.false_eq_true, if_false,
      Option.some.injEq, Prod.mk.injEq] at h
    obtain ⟨rfl, rfl⟩ := h
    exact ⟨hmem, rfl, fun c => List.mem_cons⟩

/-- `reach` finds exactly the nodes that can be reached, when its bound covers them all. -/
theorem mem_reach_iff [DecidableEq α] (nodes : Finset α)
    (hnodes : ∀ a, Reachable successors roots a → a ∈ nodes) {bound : Nat}
    (hbound : nodes.card ≤ bound) {a : α} :
    a ∈ reach successors bound roots ↔ Reachable successors roots a :=
  (search_enter successors).mem_run_iff nodes hnodes hbound fun _ => List.not_mem_nil

/-- Without a bound `reach` ends in the same way. -/
theorem exists_finishes_reach [DecidableEq α] (nodes : Finset α)
    (hnodes : ∀ a, Reachable successors roots a → a ∈ nodes) {bound : Nat}
    (hbound : nodes.card ≤ bound) :
    ∃ n, n ≤ nodes.card ∧
      Finishes (enter successors) n roots [] (reach successors bound roots) :=
  (search_enter successors).exists_finishes nodes hnodes hbound fun _ => List.not_mem_nil

end Reach

end Worklist

/-! ## Fixed points -/

section Rounds

variable {σ β : Type} {f : σ → β → σ}

/-- When each step of a round makes the state grow or has no effect, so does the round. -/
theorem foldl_eq_or_size_lt (size : σ → Nat) (hf : ∀ s b, f s b = s ∨ size s < size (f s b))
    (l : List β) (s : σ) : l.foldl f s = s ∨ size s < size (l.foldl f s) := by
  induction l generalizing s with
  | nil => exact .inl rfl
  | cons b l ih =>
    rw [List.foldl_cons]
    rcases hf s b with heq | hlt
    · rw [heq]
      exact ih s
    · rcases ih (f s b) with h | h
      · exact .inr (h.symm ▸ hlt)
      · exact .inr (Nat.lt_trans hlt h)

/-- When a round changes nothing, no step of it does. -/
theorem eq_of_foldl_eq (size : σ → Nat) (hf : ∀ s b, f s b = s ∨ size s < size (f s b))
    {l : List β} {s : σ} (h : l.foldl f s = s) : ∀ b ∈ l, f s b = s := by
  induction l with
  | nil => simp
  | cons b l ih =>
    have hrest : l.foldl f (f s b) = s := h
    have hfirst : f s b = s := by
      rcases hf s b with heq | hlt
      · exact heq
      · rcases foldl_eq_or_size_lt size hf l (f s b) with heq | hlt'
        · rw [← heq, hrest]
        · rw [hrest] at hlt'
          exact absurd (Nat.lt_trans hlt hlt') (Nat.lt_irrefl _)
    rw [hfirst] at hrest
    exact List.forall_mem_cons.2 ⟨hfirst, ih hrest⟩

end Rounds

/-- **Induction along the rounds of a fixed point.**  What every round keeps holds of the result,
and one more round does not change it. -/
theorem iterateUntilStable_induction {σ : Type} [DecidableEq σ] {f : σ → σ} {P : σ → Prop}
    (size : σ → Nat) (limit : Nat) (hstep : ∀ s, P s → P (f s))
    (hgrow : ∀ s, P s → f s ≠ s → size s < size (f s)) (hlimit : ∀ s, P s → size s ≤ limit)
    {bound : Nat} {s : σ} (hP : P s) (hbound : limit ≤ size s + bound) :
    P (iterateUntilStable f bound s) ∧
      f (iterateUntilStable f bound s) = iterateUntilStable f bound s := by
  induction bound generalizing s with
  | zero =>
    refine ⟨hP, ?_⟩
    by_contra hne
    have hlt : size s < size (f s) := hgrow s hP hne
    have hle := hlimit _ (hstep _ hP)
    omega
  | succ bound ih =>
    by_cases h : f s = s
    · simp only [iterateUntilStable, h, if_true]
      exact ⟨hP, trivial⟩
    · simp only [iterateUntilStable, h, if_false]
      have hlt := hgrow _ hP h
      exact ih (hstep _ hP) (by omega)

/-- A function is applied until it has no effect, however often that is: how many rounds have an
effect, and what they lead to. -/
inductive Stabilizes {σ : Type} (f : σ → σ) : Nat → σ → σ → Prop
  | stop {s : σ} : f s = s → Stabilizes f 0 s s
  | round {n : Nat} {s last : σ} : f s ≠ s → Stabilizes f n (f s) last → Stabilizes f (n + 1) s last

/-- **Rounds without a bound end**, with what the bounded ones lead to: each round that has an
effect makes the state grow. -/
theorem exists_stabilizes_iterateUntilStable {σ : Type} [DecidableEq σ] {f : σ → σ} {P : σ → Prop}
    (size : σ → Nat) (limit : Nat) (hstep : ∀ s, P s → P (f s))
    (hgrow : ∀ s, P s → f s ≠ s → size s < size (f s)) (hlimit : ∀ s, P s → size s ≤ limit)
    {bound : Nat} {s : σ} (hP : P s) (hbound : limit ≤ size s + bound) :
    ∃ n, size s + n ≤ limit ∧ Stabilizes f n s (iterateUntilStable f bound s) := by
  induction bound generalizing s with
  | zero =>
    have hstable : f s = s := by
      by_contra hne
      have hlt := hgrow s hP hne
      have hle := hlimit _ (hstep _ hP)
      omega
    exact ⟨0, hlimit s hP, .stop hstable⟩
  | succ bound ih =>
    unfold iterateUntilStable
    dsimp only
    split
    · next hstable => exact ⟨0, hlimit s hP, .stop hstable⟩
    · next hne =>
      have hlt := hgrow s hP hne
      obtain ⟨n, hn, hrounds⟩ := ih (hstep s hP) (by omega)
      exact ⟨n + 1, by omega, .round hne hrounds⟩

end FrontEnd
