import TurtleGrammar.RuleSet
import TurtleGrammar.Plane.Graph
import TurtleGrammar.Turtle.StepLength

/-! # Turtles — walking a word into a graph

    A turtle stands somewhere, looks somewhere and has a step length.  It reads
    a word from left to right and obeys the commands in it; every step forward
    is recorded as an edge of a graph.

    - A branch ends where it began: position and heading are restored, the step
      length is not.
    - The end of a branch that was never begun changes nothing but a counter,
      so every word can be walked.
    - The graph decides which points are the same node, but the turtle goes on
      from its exact position: merging nodes never bends the walk.
    - Each walk starts afresh.  Nothing of an earlier one is left in it. -/

namespace TurtleGrammar

/-- What a branch restores when it ends. -/
structure Pose where
  position : Point Float
  heading : Float

/-- The moving part of a turtle: where it is and how long its next step will be. -/
structure Cursor extends Pose where
  length : Float

namespace Cursor

/-- The start of a walk. -/
def ofConfig (config : TurtleConfig) : Cursor :=
  { position := config.position, heading := config.heading, length := config.length }

/-- Where a step forward leads. -/
def destination (c : Cursor) : Point Float :=
  c.position + Point.scale c.length ⟨c.heading.cos, c.heading.sin⟩

end Cursor

/-- Counts of the most recent walk. -/
structure RunStats where
  /-- Steps taken, and so edges recorded. -/
  forwardSteps : Nat := 0
  /-- The most branches that were open at once. -/
  maxDepth : Nat := 0
  /-- Ends of branches that had not been begun. -/
  unmatchedPops : Nat := 0
deriving DecidableEq

/-- A turtle with its settings, its present state and what it has recorded. -/
structure Turtle where
  config : TurtleConfig
  cursor : Cursor
  /-- The open branches, innermost last. -/
  branches : Array Pose
  graph : Graph Float
  /-- Where the first step started. -/
  root : Option (Point Float)
  stats : RunStats

namespace Turtle

/-- A turtle that has not walked yet. -/
def new (config : TurtleConfig) : Turtle :=
  { config
    cursor := .ofConfig config
    branches := #[]
    graph := .new
    root := none
    stats := {} }

instance : Inhabited Turtle := ⟨new {}⟩

/-- Back to the start, with nothing recorded.  The grid of the graph stays until the
    next walk chooses its own. -/
def reset (t : Turtle) : Turtle :=
  { t with
    cursor := .ofConfig t.config
    branches := #[]
    graph := t.graph.clear
    root := none
    stats := {} }

/-- Takes up new settings and drops what was recorded under the old ones. -/
def reconfigure (t : Turtle) (config : TurtleConfig) : Turtle := { t with config }.reset

/-- One step along the heading, recorded from the exact position to the exact
    destination. -/
def forward (t : Turtle) : Turtle :=
  let source := t.cursor.position
  let dest := t.cursor.destination
  { t with
    root := t.root <|> some source
    graph := t.graph.addEdge source dest
    cursor := { t.cursor with position := dest }
    stats := { t.stats with forwardSteps := t.stats.forwardSteps + 1 } }

/-- Begins a branch. -/
def push (t : Turtle) : Turtle :=
  let depth := t.branches.size + 1
  { t with
    branches := t.branches.push t.cursor.toPose
    stats := { t.stats with maxDepth := max t.stats.maxDepth depth } }

/-- Ends the innermost branch, if there is one. -/
def pop (t : Turtle) : Turtle :=
  match t.branches.back? with
  | some pose =>
      { t with cursor := { t.cursor with toPose := pose }, branches := t.branches.pop }
  | none => { t with stats := { t.stats with unmatchedPops := t.stats.unmatchedPops + 1 } }

/-- Obeys one command. -/
def execute (t : Turtle) : Command → Turtle
  | .forward => t.forward
  | .turnRight => { t with cursor := { t.cursor with heading := t.cursor.heading - t.config.turn } }
  | .turnLeft => { t with cursor := { t.cursor with heading := t.cursor.heading + t.config.turn } }
  | .push => t.push
  | .pop => t.pop
  | .scaleUp => { t with cursor := { t.cursor with length := t.cursor.length * t.config.factor } }
  | .scaleDown => { t with cursor := { t.cursor with length := t.cursor.length / t.config.factor } }

/-- Obeys commands one after the other. -/
def executeAll (t : Turtle) (commands : List Command) : Turtle := commands.foldl execute t

/-- Walks a word from the configured start.  The grid is chosen for the whole word
    before the first step. -/
def run (t : Turtle) (w : Word) : Turtle :=
  let commands := Command.ofWord w
  let fresh := t.reset
  { fresh with graph := fresh.graph.reset (nodeQuantum t.config commands) }.executeAll commands

/-- The recorded steps as pairs of origin and destination. -/
def edgeList (t : Turtle) : List (Point Float × Point Float) := t.graph.edgeList

end Turtle

end TurtleGrammar
