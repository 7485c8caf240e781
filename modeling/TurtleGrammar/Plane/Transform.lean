import TurtleGrammar.Plane.Point

/-! # Transforms — projective maps of the plane

    A transform is a 3 × 3 matrix that acts on homogeneous coordinates
    `(x, y, 1)`.  Products are written out entry by entry with all nine
    factors, zeros included: over `Float` a zero times an infinity is a NaN,
    and it shows in the result. -/

namespace TurtleGrammar

/-- A row of a transform: the coefficients of `x`, of `y` and of `1`. -/
structure Row (α : Type) where
  x : α
  y : α
  w : α

/-- A projective map of the plane, by rows: the new `x`, the new `y`, and the weight by
    which both are divided. -/
structure Transform (α : Type) where
  toX : Row α
  toY : Row α
  toW : Row α

namespace Transform

variable {α : Type}

section Make

variable [OfNat α 0] [OfNat α 1]

/-- Leaves every point where it is. -/
def identity : Transform α := ⟨⟨1, 0, 0⟩, ⟨0, 1, 0⟩, ⟨0, 0, 1⟩⟩

/-- Moves every point by `d`. -/
def shift (d : Point α) : Transform α := ⟨⟨1, 0, d.x⟩, ⟨0, 1, d.y⟩, ⟨0, 0, 1⟩⟩

/-- Stretches the axes about the origin. -/
def stretch (sx sy : α) : Transform α := ⟨⟨sx, 0, 0⟩, ⟨0, sy, 0⟩, ⟨0, 0, 1⟩⟩

end Make

section Compute

variable [Add α] [Mul α]

/-- A row read in the coordinates that `t` computes. -/
def pullRow (r : Row α) (t : Transform α) : Row α :=
  ⟨r.x * t.toX.x + r.y * t.toY.x + r.w * t.toW.x,
   r.x * t.toX.y + r.y * t.toY.y + r.w * t.toW.y,
   r.x * t.toX.w + r.y * t.toY.w + r.w * t.toW.w⟩

/-- The matrix product: `t` first, then `s`. -/
instance : Mul (Transform α) :=
  ⟨fun s t => ⟨pullRow s.toX t, pullRow s.toY t, pullRow s.toW t⟩⟩

/-- The image of a point.  A weight of zero leaves the coordinates undivided. -/
def apply [OfNat α 0] [Div α] [BEq α] (t : Transform α) (p : Point α) : Point α :=
  let weight := 0 + t.toW.x * p.x + t.toW.y * p.y + t.toW.w
  let x := t.toX.x * p.x + t.toX.y * p.y + t.toX.w
  let y := t.toY.x * p.x + t.toY.y * p.y + t.toY.w
  if weight == 0 then ⟨x, y⟩ else ⟨x / weight, y / weight⟩

end Compute

end Transform

end TurtleGrammar
