import TurtleGrammar.LSystem.Growth
import TurtleGrammar.Description.Draft
import TurtleGrammar.Turtle.Basic

/-! # Grammars — complete descriptions of a walk

    A grammar says what to grow, how far, and how to walk the result.  A draft
    is complete once it has a seed and a number of generations; the settings of
    the turtle that it leaves open are those of a turtle that was told
    nothing. -/

namespace TurtleGrammar

/-- Everything that a description says. -/
structure Grammar where
  preset : Option Preset := none
  seed : Word := []
  /-- The rules, with distinct symbols. -/
  rules : List (Char × Word) := []
  config : TurtleConfig := {}
  generations : Nat := 0
  maxLength : Option Nat := none

namespace Draft

/-- The settings of the turtle. -/
def config (d : Draft) : TurtleConfig :=
  let unset : TurtleConfig := {}
  { length := d.length.getD unset.length
    position := d.position.getD unset.position
    heading := d.heading.getD unset.heading
    turn := d.angle.getD unset.turn
    factor := d.scale.getD unset.factor }

/-- The slots that have to be set and are not. -/
def unset (d : Draft) : List Slot := [.seed, .generations].filter fun s => !d.has (.slot s)

/-- The grammar of a draft that needs no filling, or the slots that it lacks. -/
def toGrammar (d : Draft) : Except (List Slot) Grammar :=
  match d.seed, d.generations with
  | some seed, some generations =>
      .ok { preset := d.preset, seed, rules := d.rules.toList, config := d.config, generations,
            maxLength := d.maxLength }
  | _, _ => .error d.unset

/-- The grammar of a draft, with the help of the preset that it names. -/
def complete (d : Draft) : Except (List Slot) Grammar := d.fill.toGrammar

end Draft

namespace Grammar

/-- The rules as a set. -/
def ruleSet (g : Grammar) : RuleSet := .ofList g.rules

/-- The system at generation `0`. -/
def lsystem (g : Grammar) : LSystem := .new g.seed g.ruleSet

/-- Grows all generations, unless one would be too long. -/
def expand (g : Grammar) : Except Overrun LSystem := g.lsystem.grow g.maxLength g.generations

/-- Grows all generations and walks the last one. -/
def walk (g : Grammar) : Except Overrun Turtle :=
  g.expand.map fun s => (Turtle.new g.config).run s.current

end Grammar

end TurtleGrammar
