/-!
# Worklists and fixed points

The two loops behind the closures of this library.  A worklist takes items one by one and absorbs
each into a state, which may bring up further items.  A fixed point is reached by applying a
function until nothing changes.

## Main Definitions

* `Worklist.next?` — the first item of a worklist that is absorbed
* `Worklist.run` — absorbs items until none of them brings anything new
* `Worklist.reach` — what can be reached from some nodes, as a list without repetitions
* `iterateUntilStable` — applies a function until it has no effect

## Design Notes

The bound of `Worklist.run` counts only the items that are absorbed.  An item that brings nothing
new costs nothing, so the number of distinct items bounds the run.
-/

namespace FrontEnd

namespace Worklist

variable {σ α : Type}

/-- The first item that is absorbed: the new state, the items it brings up, and the items behind
it. -/
def next? (absorb : σ → α → Option (σ × List α)) (s : σ) :
    List α → Option (σ × List α × List α)
  | [] => none
  | a :: rest =>
    match absorb s a with
    | some (s', more) => some (s', more, rest)
    | none => next? absorb s rest

/-- Absorbs items until none of those left brings anything new, at most as often as the bound
says.  The items that come up are taken before the older ones. -/
def run (absorb : σ → α → Option (σ × List α)) : Nat → List α → σ → σ
  | 0, _, s => s
  | bound + 1, todo, s =>
    match next? absorb s todo with
    | none => s
    | some (s', more, rest) => run absorb bound (more ++ rest) s'

/-- Nodes that can be reached from `roots` along `successors`, where `bound` is at least the
number of nodes.  The latest one comes first. -/
def reach [BEq α] (successors : α → List α) (bound : Nat) (roots : List α) : List α :=
  run (fun seen a => if seen.contains a then none else some (a :: seen, successors a))
    bound roots []

end Worklist

/-- Applies a function until it has no effect, at most as often as the bound says. -/
def iterateUntilStable {σ : Type} [DecidableEq σ] (f : σ → σ) : Nat → σ → σ
  | 0, s => s
  | bound + 1, s =>
    let s' := f s
    if s' = s then s else iterateUntilStable f bound s'

end FrontEnd
