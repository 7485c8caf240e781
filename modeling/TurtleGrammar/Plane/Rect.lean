import TurtleGrammar.Scalar
import TurtleGrammar.Plane.Point

/-! # Rectangles — axis-parallel boxes grown around points

    A rectangle is given by its lower left and upper right corners.  One whose
    corners are the wrong way round on some axis is empty; `Rect.empty` is the
    emptiest of them, and growing it around points one after the other gives
    the bounding rectangle of those points. -/

namespace TurtleGrammar

/-- An axis-parallel rectangle. -/
structure Rect (α : Type) where
  /-- The corner with the lesser coordinates. -/
  lower : Point α
  /-- The corner with the greater coordinates. -/
  upper : Point α
deriving BEq

namespace Rect

variable {α : Type}

/-- Contains no point, and lies inside every rectangle that contains one. -/
def empty [Scalar α] [Neg α] : Rect α :=
  let corner : Point α := ⟨Scalar.greatest, Scalar.greatest⟩
  ⟨corner, -corner⟩

/-- The corners are the wrong way round on some axis. -/
def isEmpty [LT α] [DecidableLT α] (r : Rect α) : Bool :=
  r.upper.x < r.lower.x || r.upper.y < r.lower.y

/-- The rectangle grown just enough to contain `p`. -/
def expand [LE α] [DecidableLE α] (r : Rect α) (p : Point α) : Rect α :=
  ⟨r.lower.inf p, r.upper.sup p⟩

/-- Width and height. -/
def dims [Sub α] (r : Rect α) : Point α := r.upper - r.lower

/-- The lower corner moved by half the extent. -/
def center [Add α] [Sub α] [Div α] [OfNat α 2] (r : Rect α) : Point α :=
  r.lower + ⟨r.dims.x / 2, r.dims.y / 2⟩

end Rect

end TurtleGrammar
