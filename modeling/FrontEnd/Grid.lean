/-!
# Grids

A grid has rows and columns, and its cells lie row by row in one array.  Seen from a row, the cells
behind its last one are those of the row below, so a column beyond the row leads to a cell of
another row.

## Main Definitions

* `Grid` — rows and columns of cells
* `Grid.get?` — the cell in a row and a column
* `Grid.cellAt?`, `Grid.setAt` — the cell so many places behind the start of a row
* `Grid.filled`, `Grid.ofFunction` — grids of a given size

## Main Statements

* `Grid.get?_ofFunction`, `Grid.get?_setAt` — what the cells are after each operation
* `Grid.cellAt?_eq_get?` — places and columns agree inside of a row
-/

namespace FrontEnd

/-- Rows and columns of cells. -/
structure Grid (α : Type) where
  rows : Nat
  columns : Nat
  /-- The cells, row by row. -/
  cells : Array α
  size_cells : cells.size = rows * columns
deriving DecidableEq

namespace Grid

variable {α : Type}

/-- A grid whose cells are computed from the row and the column. -/
def ofFunction (rows columns : Nat) (f : Nat → Nat → α) : Grid α :=
  ⟨rows, columns, Array.ofFn fun i : Fin (rows * columns) => f (i / columns) (i % columns),
    Array.size_ofFn⟩

/-- A grid whose cells are all the same. -/
def filled (rows columns : Nat) (a : α) : Grid α :=
  ⟨rows, columns, Array.replicate (rows * columns) a, Array.size_replicate⟩

/-- The place among all cells that lies so many places behind the start of a row.  Places in front
of the first cell are negative. -/
def place (g : Grid α) (row : Nat) (offset : Int) : Int :=
  Int.ofNat (row * g.columns) + offset

/-- The cell in a row and a column. -/
def get? (g : Grid α) (row column : Nat) : Option α :=
  if column < g.columns then g.cells[row * g.columns + column]? else none

/-- The cell so many places behind the start of a row. -/
def cellAt? (g : Grid α) (row : Nat) (offset : Int) : Option α :=
  if g.place row offset < 0 then none else g.cells[(g.place row offset).toNat]?

/-- Changes the cell so many places behind the start of a row, if there is one. -/
def setAt (g : Grid α) (row : Nat) (offset : Int) (a : α) : Grid α :=
  let i := g.place row offset
  if i < 0 then g
  else
    ⟨g.rows, g.columns, g.cells.setIfInBounds i.toNat a,
      Array.size_setIfInBounds.trans g.size_cells⟩

theorem place_lt_of_row_lt {g : Grid α} {row column : Nat} (hr : row < g.rows)
    (hc : column < g.columns) : row * g.columns + column < g.rows * g.columns := by
  have h : (row + 1) * g.columns ≤ g.rows * g.columns := Nat.mul_le_mul_right _ hr
  rw [Nat.succ_mul] at h
  omega

/-- Inside of a row, the cell of a column is as many places behind the start of the row. -/
theorem cellAt?_eq_get? {g : Grid α} {row column : Nat} (h : column < g.columns) :
    g.cellAt? row (Int.ofNat column) = g.get? row column := by
  have hp : g.place row (Int.ofNat column) = Int.ofNat (row * g.columns + column) := rfl
  have hn : ¬ Int.ofNat (row * g.columns + column) < 0 := Int.not_lt.2 (Int.natCast_nonneg _)
  rw [cellAt?, get?, hp, if_neg hn, if_pos h]
  rfl

@[simp] theorem rows_setAt {g : Grid α} {row : Nat} {offset : Int} {a : α} :
    (g.setAt row offset a).rows = g.rows := by
  simp only [setAt]
  split <;> rfl

@[simp] theorem columns_setAt {g : Grid α} {row : Nat} {offset : Int} {a : α} :
    (g.setAt row offset a).columns = g.columns := by
  simp only [setAt]
  split <;> rfl

/-- The cells of a computed grid. -/
theorem get?_ofFunction {rows columns row column : Nat} {f : Nat → Nat → α} (hr : row < rows)
    (hc : column < columns) :
    (ofFunction rows columns f).get? row column = some (f row column) := by
  have hlt : row * columns + column < rows * columns :=
    place_lt_of_row_lt (g := ofFunction rows columns f) hr hc
  have hdiv : (row * columns + column) / columns = row := by
    rw [Nat.mul_comm, Nat.mul_add_div (by omega), Nat.div_eq_of_lt hc, Nat.add_zero]
  have hmod : (row * columns + column) % columns = column := by
    rw [Nat.mul_comm, Nat.mul_add_mod, Nat.mod_eq_of_lt hc]
  simp [get?, ofFunction, hc, hlt, hdiv, hmod]

/-- The cells of a grid that is filled with one value. -/
theorem get?_filled {rows columns row column : Nat} {a : α} (hr : row < rows)
    (hc : column < columns) : (filled rows columns a).get? row column = some a := by
  have hlt : row * columns + column < rows * columns :=
    place_lt_of_row_lt (g := filled rows columns a) hr hc
  simp [get?, filled, hc, hlt]

/-- A change inside of a row shows in the row and the column of the change only. -/
theorem get?_setAt {g : Grid α} {row column r c : Nat} {a : α} (hr : row < g.rows)
    (hc : column < g.columns) :
    (g.setAt row (Int.ofNat column) a).get? r c =
      if r = row ∧ c = column then some a else g.get? r c := by
  have hp : g.place row (Int.ofNat column) = Int.ofNat (row * g.columns + column) := rfl
  have hn : ¬ Int.ofNat (row * g.columns + column) < 0 := Int.not_lt.2 (Int.natCast_nonneg _)
  have hset : g.setAt row (Int.ofNat column) a =
      ⟨g.rows, g.columns, g.cells.setIfInBounds (row * g.columns + column) a,
        Array.size_setIfInBounds.trans g.size_cells⟩ := by
    simp only [setAt, hp, if_neg hn]
    rfl
  rw [hset]
  by_cases hcc : c < g.columns
  · have hplace : row * g.columns + column = r * g.columns + c ↔ r = row ∧ c = column := by
      constructor
      · intro h
        have hdiv := congrArg (· / g.columns) h
        have hmod := congrArg (· % g.columns) h
        have hpos : 0 < g.columns := by omega
        simp only [Nat.mul_comm _ g.columns, Nat.mul_add_div hpos, Nat.div_eq_of_lt hc,
          Nat.div_eq_of_lt hcc, Nat.mul_add_mod, Nat.mod_eq_of_lt hc, Nat.mod_eq_of_lt hcc,
          Nat.add_zero] at hdiv hmod
        exact ⟨hdiv.symm, hmod.symm⟩
      · rintro ⟨rfl, rfl⟩
        rfl
    have hlt := place_lt_of_row_lt hr hc
    simp only [get?, hcc, if_true, Array.getElem?_setIfInBounds, hplace]
    split
    next h =>
      rw [← h.1, ← h.2] at hlt ⊢
      simp [g.size_cells, h.1, h.2, place_lt_of_row_lt hr hc]
    next => rfl
  · have hne : ¬ (r = row ∧ c = column) := by
      rintro ⟨-, rfl⟩
      exact hcc hc
    simp [get?, hcc, hne]

end Grid

end FrontEnd
