import TurtleGrammar.Plane.Point

/-! # Commands — what a turtle is told, by its settings and by a word

    The settings say where a walk starts and how far a step and a turn go.
    Every angle of the library is in radians, counted from the positive `x`
    axis towards the positive `y` axis; people write them in degrees.

    Seven symbols move the turtle.  Every other symbol of a word has served its
    purpose in the grammar and is passed over. -/

namespace TurtleGrammar

/-! ## Settings -/

namespace Angle

/-- Half a turn: the 64-bit number nearest to π. -/
def pi : Float := 3.141592653589793

/-- An angle given in degrees.  The factor is rounded once and then used for every
    angle. -/
def ofDegrees (degrees : Float) : Float := degrees * (pi / 180)

end Angle

/-- The settings of a walk: length, start and heading of the first step, the angle of a
    turn in radians, and the factor by which the step length is multiplied or divided.
    Unless told otherwise a turtle starts at the origin, looks up, takes unit steps, and
    neither turns nor rescales. -/
structure TurtleConfig where
  length : Float := 1
  position : Point Float := .origin
  heading : Float := 0.5 * Angle.pi
  turn : Float := 0
  factor : Float := 1

/-! ## Symbols -/

/-- What a turtle can be told to do. -/
inductive Command where
  /-- Step along the heading and record the step. -/
  | forward
  /-- Turn clockwise by the turn angle. -/
  | turnRight
  /-- Turn counter-clockwise by the turn angle. -/
  | turnLeft
  /-- Begin a branch: remember position and heading. -/
  | push
  /-- End a branch: go back to where it began. -/
  | pop
  /-- Multiply the step length by the length factor. -/
  | scaleUp
  /-- Divide the step length by the length factor. -/
  | scaleDown
deriving DecidableEq, Repr

namespace Command

/-- The symbol that stands for a command. -/
def symbol : Command → Char
  | forward => 'F'
  | turnRight => '+'
  | turnLeft => '-'
  | push => '['
  | pop => ']'
  | scaleUp => '>'
  | scaleDown => '<'

/-- The command that a symbol stands for, if it stands for one. -/
def ofSymbol? : Char → Option Command
  | 'F' => some forward
  | '+' => some turnRight
  | '-' => some turnLeft
  | '[' => some push
  | ']' => some pop
  | '>' => some scaleUp
  | '<' => some scaleDown
  | _ => none

/-- The commands of a word, in reading order. -/
def ofWord (w : List Char) : List Command := w.filterMap ofSymbol?

/-- Every command has a symbol of its own. -/
@[simp] theorem ofSymbol?_symbol (c : Command) : ofSymbol? c.symbol = some c := by
  cases c <;> rfl

/-- A symbol stands for a command exactly when it is the symbol of that command. -/
theorem ofSymbol?_eq_some {c : Char} {command : Command} :
    ofSymbol? c = some command ↔ c = command.symbol := by
  constructor
  · intro h
    unfold ofSymbol? at h
    split at h
    case h_8 => exact nomatch h
    all_goals
      obtain rfl := Option.some.inj h
      rfl
  · rintro rfl
    exact ofSymbol?_symbol command

/-! ## The commands of a word -/

theorem ofWord_append (u v : List Char) : ofWord (u ++ v) = ofWord u ++ ofWord v :=
  List.filterMap_append

/-- A command is given by a word exactly when its symbol is written there. -/
theorem mem_ofWord {w : List Char} {command : Command} :
    command ∈ ofWord w ↔ command.symbol ∈ w := by
  rw [ofWord, List.mem_filterMap]
  constructor
  · rintro ⟨c, hc, hcommand⟩
    rw [← ofSymbol?_eq_some.mp hcommand]
    exact hc
  · intro h
    exact ⟨command.symbol, h, ofSymbol?_symbol command⟩

/-- A command is given as often as its symbol is written. -/
theorem count_ofWord (command : Command) (w : List Char) :
    (ofWord w).count command = w.count command.symbol := by
  rw [ofWord, List.count_filterMap, List.count_eq_countP]
  refine List.countP_congr ?_
  intro c _
  rw [beq_iff_eq, beq_iff_eq]
  exact ofSymbol?_eq_some

end Command

end TurtleGrammar
