/-! # Points — pairs of coordinates

    A point also serves as the displacement between two points, so points are
    added and subtracted by coordinate.  `==` compares coordinates with the
    `==` of the scalar; over `Float` a NaN then differs from itself and the two
    zeros agree, while `=` tells all of them apart. -/

namespace TurtleGrammar

/-- A point of the plane. -/
structure Point (α : Type) where
  x : α
  y : α
deriving BEq

namespace Point

variable {α : Type}

/-- The point with both coordinates zero. -/
def origin [OfNat α 0] : Point α := ⟨0, 0⟩

instance [Add α] : Add (Point α) := ⟨fun p q => ⟨p.x + q.x, p.y + q.y⟩⟩

instance [Sub α] : Sub (Point α) := ⟨fun p q => ⟨p.x - q.x, p.y - q.y⟩⟩

instance [Neg α] : Neg (Point α) := ⟨fun p => ⟨-p.x, -p.y⟩⟩

/-- Every coordinate of `p` multiplied by `k`, on the left. -/
def scale [Mul α] (k : α) (p : Point α) : Point α := ⟨k * p.x, k * p.y⟩

/-- The lesser of two coordinates, on each axis.  Where they are not comparable the
    second one counts. -/
def inf [LE α] [DecidableLE α] (p q : Point α) : Point α :=
  ⟨if p.x ≤ q.x then p.x else q.x, if p.y ≤ q.y then p.y else q.y⟩

/-- The greater of two coordinates, on each axis.  Where they are not comparable the
    second one counts. -/
def sup [LE α] [DecidableLE α] (p q : Point α) : Point α :=
  ⟨if q.x ≤ p.x then p.x else q.x, if q.y ≤ p.y then p.y else q.y⟩

end Point

end TurtleGrammar
