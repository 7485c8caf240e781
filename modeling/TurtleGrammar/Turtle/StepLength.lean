import TurtleGrammar.Plane.NodeKey
import TurtleGrammar.Turtle.Command

/-! # Step lengths — how fine a grid a walk needs

    The grid on which a walk's points are told apart has to be finer than the
    shortest step of the walk, or a step would end at the node it started
    from.  Step lengths depend on the scaling commands alone, in reading order
    and across branches, so they are known before the walk begins. -/

namespace TurtleGrammar

/-- The length of every step that the commands take, the first step having length
    `length` unless it is rescaled before. -/
def stepLengths (factor : Float) : Float → List Command → List Float
  | _, [] => []
  | length, .forward :: rest => length :: stepLengths factor length rest
  | length, .scaleUp :: rest => stepLengths factor (length * factor) rest
  | length, .scaleDown :: rest => stepLengths factor (length / factor) rest
  | length, .turnRight :: rest
  | length, .turnLeft :: rest
  | length, .push :: rest
  | length, .pop :: rest => stepLengths factor length rest

/-- The shorter of the shortest size so far and the size of one more step.  Steps of no
    size, of infinite size and of none that is a number do not count. -/
def shorter (least : Option Float) (length : Float) : Option Float :=
  let size := length.abs
  if 0 < size && size < least.getD (1 / 0) then some size else least

/-- The least size among the steps that have a positive finite one. -/
def shortest? (lengths : List Float) : Option Float := lengths.foldl shorter none

/-- The quantum of the grid for a word: a fixed fraction of its shortest step.  Without
    a step to go by there is no grid, and the quantum is zero. -/
def nodeQuantum (config : TurtleConfig) (commands : List Command) : Float :=
  match shortest? (stepLengths config.factor config.length commands) with
  | some size => NodeKey.tolerance * size
  | none => 0

end TurtleGrammar
