import TurtleGrammar.Scalar
import TurtleGrammar.Plane.Point

/-! # Node keys — when two points are the same node

    Long walks drift: a point that is reached twice along different ways is
    computed with different rounding errors.  Points are therefore told apart
    by the cell of a square grid that they are nearest to.  The spacing of the
    grid is its quantum.

    Where there is no grid, because the quantum is zero, negative, infinite or
    a NaN, and for points so far out that the cells cannot be counted exactly,
    a point is its own key. -/

namespace TurtleGrammar

/-- The identity of a point as a node. -/
inductive NodeKey (α : Type) where
  /-- The nearest grid point, counted in cells from the origin. -/
  | grid (column row : Int)
  /-- The coordinates themselves. -/
  | exact (x y : α)
deriving DecidableEq, Hashable

namespace NodeKey

variable {α : Type} [Scalar α] [LT α] [DecidableLT α]

/-- A number of cells that the grid can count: less than `2^53` either way. -/
def countable [Neg α] (cells : α) : Bool :=
  -Scalar.gridLimit < cells && cells < Scalar.gridLimit

/-- The key of a point on the grid with the given quantum.  Adding zero to an exact
    coordinate identifies the two zeros of the floating-point numbers. -/
def ofPoint [OfNat α 0] [Add α] [Div α] [Neg α] (quantum : α) (p : Point α) : NodeKey α :=
  let column := p.x / quantum
  let row := p.y / quantum
  if (0 < quantum && Scalar.isFinite quantum) && (countable column && countable row) then
    .grid (Scalar.nearest column) (Scalar.nearest row)
  else
    .exact (p.x + 0) (p.y + 0)

/-- The quantum of a grid for steps of unit length: far below any intended difference,
    far above what rounding errors add up to. -/
def tolerance : Float := 1e-12

end NodeKey

end TurtleGrammar
