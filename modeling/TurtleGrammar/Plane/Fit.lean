import TurtleGrammar.Plane.Rect
import TurtleGrammar.Plane.Transform

/-! # Fitting — moving a drawing onto a canvas

    A drawing is fitted by moving the centre of its bounding rectangle to the
    centre of the target, after scaling it by one factor for both axes: the
    largest at which it still fits.  An axis on which the drawing has no extent
    says nothing about the factor, and a drawing with no extent at all keeps
    its size. -/

namespace TurtleGrammar

/-- Which way the vertical axis of the target points. -/
inductive YAxis where
  /-- Upwards, as in the plane of the drawing. -/
  | up
  /-- Downwards, as on most screens: the drawing is turned over. -/
  | down
deriving DecidableEq

/-- A transform together with the factor by which it scales. -/
structure Fit (α : Type) where
  transform : Transform α
  scale : α

namespace Fit

variable {α : Type}

/-- The factor `s`, lowered to what one axis allows.  An axis without extent allows
    everything. -/
def limitBy [LT α] [DecidableLT α] [OfNat α 0] [Div α] (s content target : α) : α :=
  if 0 < content then
    let ratio := target / content
    if ratio < s then ratio else s
  else s

/-- The largest factor that both axes allow, or `1` when neither has anything to
    say. -/
def scaleFor [Scalar α] [LT α] [DecidableLT α] [OfNat α 0] [OfNat α 1] [Div α] [BEq α]
    (content target : Point α) : α :=
  let s := limitBy (limitBy Scalar.greatest content.x target.x) content.y target.y
  if s == Scalar.greatest then 1 else s

/-- Fits the drawing with bounding rectangle `content` into `target`.  With nothing to
    fit, the origin goes to the centre of the target. -/
def ofRects [Scalar α] [LT α] [DecidableLT α] [OfNat α 0] [OfNat α 1] [OfNat α 2]
    [Add α] [Sub α] [Mul α] [Div α] [Neg α] [BEq α]
    (content target : Rect α) (axis : YAxis) : Fit α :=
  let toTarget : Transform α := .shift target.center
  if content.isEmpty then
    ⟨.identity * toTarget, 1⟩
  else
    let s := scaleFor content.dims target.dims
    let sign : α := match axis with
      | .up => 1
      | .down => -1
    ⟨toTarget * .stretch s (s * sign) * .shift (-content.center), s⟩

end Fit

end TurtleGrammar
