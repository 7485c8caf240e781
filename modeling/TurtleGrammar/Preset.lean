import TurtleGrammar.LSystem
import TurtleGrammar.Turtle.Command

/-! # Presets — a catalog of well-known curves

    A preset pairs a grammar with the turn angle and the length factor that its
    curve is drawn with.  Presets are plain data: nothing else in the library
    depends on which of them exist.

    The catalog is listed in the order of the names, which is also the order in
    which the names are offered to a reader. -/

namespace TurtleGrammar

/-- A named curve. -/
structure Preset where
  name : String
  /-- What the curve is called in print. -/
  description : String
  /-- The turn angle in degrees, the way it is usually published. -/
  angleDeg : Float
  lengthFactor : Float
  seed : Word
  rules : List (Char × Word)

namespace Preset

/-! ## The curves -/

def dragon : Preset where
  name := "dragon"
  description := "Heighway dragon"
  angleDeg := 90
  lengthFactor := 1
  seed := "FX".toList
  rules := [('X', "X+YF+".toList), ('Y', "-FX-Y".toList)]

def hilbert : Preset where
  name := "hilbert"
  description := "Hilbert curve"
  angleDeg := 90
  lengthFactor := 1
  seed := "X".toList
  rules := [('X', "-YF+XFX+FY-".toList), ('Y', "+XF-YFY-FX+".toList)]

def koch : Preset where
  name := "koch"
  description := "Koch snowflake"
  angleDeg := 60
  lengthFactor := 1
  seed := "F++F++F".toList
  rules := [('F', "F-F++F-F".toList)]

def kochIsland : Preset where
  name := "koch_island"
  description := "quadratic Koch island"
  angleDeg := 90
  lengthFactor := 1
  seed := "F+F+F+F".toList
  rules := [('F', "F+F-F-FF+F+F-F".toList)]

def levy : Preset where
  name := "levy"
  description := "Levy C curve"
  angleDeg := 45
  lengthFactor := 1
  seed := "F".toList
  rules := [('F', "+F--F+".toList)]

def shrinkingH : Preset where
  name := "shrinking_h"
  description := "H-tree whose arms shrink each level"
  angleDeg := 90
  lengthFactor := 0.7071067811865476
  seed := "X".toList
  rules := [('X', "[F>+X<]-F>+X<".toList)]

def sierpinski : Preset where
  name := "sierpinski"
  description := "Sierpinski square curve"
  angleDeg := 90
  lengthFactor := 1
  seed := "F+XF+F+XF".toList
  rules := [('X', "XF-F+F-XF+F+XF-F+F-X".toList)]

def terdragon : Preset where
  name := "terdragon"
  description := "Davis-Knuth terdragon"
  angleDeg := 120
  lengthFactor := 1
  seed := "F".toList
  rules := [('F', "F+F-F".toList)]

/-! ## The catalog -/

/-- All presets, in the order of their names. -/
def catalog : List Preset :=
  [dragon, hilbert, koch, kochIsland, levy, shrinkingH, sierpinski, terdragon]

/-- The names of all presets, in order. -/
def names : List String := catalog.map name

/-- The preset with a name, if the catalog has one. -/
def find? (name : String) : Option Preset := catalog.find? (·.name == name)

/-- The rules of the curve. -/
def ruleSet (p : Preset) : RuleSet := .ofList p.rules

/-- The grammar of the curve, not yet advanced. -/
def lsystem (p : Preset) : LSystem := .new p.seed p.ruleSet

/-- The turn angle in radians. -/
def turnAngle (p : Preset) : Float := Angle.ofDegrees p.angleDeg

/-- The settings under which the curve is drawn with first steps of the given length. -/
def turtleConfig (p : Preset) (length : Float) : TurtleConfig :=
  { length, turn := p.turnAngle, factor := p.lengthFactor }

end Preset

end TurtleGrammar
