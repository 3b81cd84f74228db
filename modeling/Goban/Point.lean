/-!
# The points of the board

The board has nine rows of nine points. A point is its number counted row by row from the top left
corner, so that a board is a vector indexed by points.
-/

namespace Goban

/-- The number of rows, and of columns, of the board. -/
abbrev side : Nat := 9

/-- The number of points of the board. -/
abbrev pointCount : Nat := side * side

/-- A point of the board, counted row by row from the top left corner. -/
abbrev Point := Fin pointCount

-- The zero is named because an algebra library brings another one, of the same value.
instance : @NeZero Nat Zero.ofOfNat0 pointCount := ⟨by decide⟩

/-- A vector with an element for each point may be asked at every point. -/
instance {α : Type} : GetElem (Vector α pointCount) Point α fun _ _ => True where
  getElem xs p _ := GetElem.getElem xs p.val p.isLt

namespace Point

theorem getElem_eq {α : Type} (xs : Vector α pointCount) (p : Point) :
    xs[p] = GetElem.getElem xs p.val p.isLt := rfl

/-- The row of a point, counted from the top. -/
def row (p : Point) : Nat := p.val / side

/-- The column of a point, counted from the left. -/
def column (p : Point) : Nat := p.val % side

/-- The point in a row and a column of the board. -/
def ofRowColumn (row column : Nat) (hr : row < side) (hc : column < side) : Point :=
  ⟨row * side + column, by simp only [side, pointCount] at *; omega⟩

/-- Every point of the board, in increasing order. -/
def all : List Point := List.finRange pointCount

/-- The points next to `p` in its row and in its column. -/
def adjacentTo (p : Point) : List Point :=
  (if h : side ≤ p.val then [⟨p.val - side, by omega⟩] else [])
    ++ (if h : p.val + side < pointCount then [⟨p.val + side, h⟩] else [])
    ++ (if p.column = 0 then [] else [⟨p.val - 1, by omega⟩])
    ++ (if h : p.column + 1 < side then
        [⟨p.val + 1, by
          have := p.isLt
          simp only [column, side, pointCount] at *
          omega⟩] else [])

/-- The lists of `adjacentTo`, computed once for the whole board. -/
def neighbourTable : Vector (List Point) pointCount := Vector.ofFn adjacentTo

/-- The two to four points orthogonally next to `p`. -/
def neighbours (p : Point) : List Point := neighbourTable[p]

theorem neighbours_eq (p : Point) : p.neighbours = p.adjacentTo := by
  simp [neighbours, neighbourTable, getElem_eq]

@[simp] theorem mem_all (p : Point) : p ∈ all := List.mem_finRange p

theorem row_lt (p : Point) : p.row < side := by
  have := p.isLt
  simp only [row, side, pointCount] at *
  omega

theorem column_lt (p : Point) : p.column < side := Nat.mod_lt _ (by decide)

theorem ofRowColumn_row_column (p : Point) :
    ofRowColumn p.row p.column p.row_lt p.column_lt = p := Fin.ext (Nat.div_add_mod' p.val side)

@[simp] theorem row_ofRowColumn {row column : Nat} (hr : row < side) (hc : column < side) :
    (ofRowColumn row column hr hc).row = row := by
  show (row * side + column) / side = row
  rw [Nat.mul_comm, Nat.mul_add_div (by decide), Nat.div_eq_of_lt hc, Nat.add_zero]

@[simp] theorem column_ofRowColumn {row column : Nat} (hr : row < side) (hc : column < side) :
    (ofRowColumn row column hr hc).column = column := by
  show (row * side + column) % side = column
  rw [Nat.mul_comm, Nat.mul_add_mod, Nat.mod_eq_of_lt hc]

end Point

end Goban
