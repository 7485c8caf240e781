import TurtleGrammar.Description.Setting

/-! # Drafts — what the lines so far have set

    A description is read line by line into a draft.  Every slot can be set
    once and every symbol can have one rule; a second setting for the same
    entry is refused, so a value that is set is never overwritten.  The two
    spellings of an angle set the same slot. -/

namespace TurtleGrammar

/-- The slots of a description that hold a single value. -/
inductive Slot where
  | preset
  | seed
  | angle
  | heading
  | length
  | scale
  | position
  | generations
  | maxLength
deriving DecidableEq

/-- A slot as it is called in messages. -/
def Slot.name : Slot → String
  | preset => "preset"
  | seed => "axiom"
  | angle => "angle"
  | heading => "heading"
  | length => "length"
  | scale => "scale"
  | position => "position"
  | generations => "generations"
  | maxLength => "max_length"

/-- What can be set at most once. -/
inductive Entry where
  | slot (s : Slot)
  /-- The rule of a symbol. -/
  | rule (symbol : Char)
deriving DecidableEq

/-- The wording of the refusal to set an entry again. -/
def Entry.repeatedMessage : Entry → String
  | slot s => s!"{s.name} is already set"
  | rule symbol => "rule for '" ++ String.singleton symbol ++ "' is already set"

/-- The entry that a setting sets. -/
def Setting.entry : Setting → Entry
  | preset _ => .slot .preset
  | seed _ => .slot .seed
  | rule symbol _ => .rule symbol
  | angle _ => .slot .angle
  | heading _ => .slot .heading
  | length _ => .slot .length
  | scale _ => .slot .scale
  | position _ => .slot .position
  | generations _ => .slot .generations
  | maxLength _ => .slot .maxLength

/-- The values that have been set.  Angles are in radians. -/
structure Draft where
  preset : Option Preset := none
  seed : Option Word := none
  /-- The rules in the order of their lines. -/
  rules : Array (Char × Word) := #[]
  angle : Option Float := none
  heading : Option Float := none
  length : Option Float := none
  scale : Option Float := none
  position : Option (Point Float) := none
  generations : Option Nat := none
  maxLength : Option Nat := none

namespace Draft

/-- Whether an entry has been set. -/
def has (d : Draft) : Entry → Bool
  | .slot .preset => d.preset.isSome
  | .slot .seed => d.seed.isSome
  | .slot .angle => d.angle.isSome
  | .slot .heading => d.heading.isSome
  | .slot .length => d.length.isSome
  | .slot .scale => d.scale.isSome
  | .slot .position => d.position.isSome
  | .slot .generations => d.generations.isSome
  | .slot .maxLength => d.maxLength.isSome
  | .rule symbol => d.rules.any (·.1 == symbol)

/-- Sets an entry, with no regard to what it held. -/
def set (d : Draft) : Setting → Draft
  | .preset p => { d with preset := p }
  | .seed w => { d with seed := w }
  | .rule symbol replacement => { d with rules := d.rules.push (symbol, replacement) }
  | .angle a => { d with angle := a }
  | .heading a => { d with heading := a }
  | .length l => { d with length := l }
  | .scale factor => { d with scale := factor }
  | .position p => { d with position := p }
  | .generations n => { d with generations := n }
  | .maxLength n => { d with maxLength := n }

/-- Sets an entry that has not been set, or says which entry has been. -/
def add (d : Draft) (s : Setting) : Except Entry Draft :=
  if d.has s.entry then .error s.entry else .ok (d.set s)

/-- Fills from the preset what no line has set: the seed, the angle and the scale one by
    one, the rules all together or not at all. -/
def fill (d : Draft) : Draft :=
  match d.preset with
  | none => d
  | some p =>
      { d with
        seed := d.seed <|> some p.seed
        rules := if d.rules.isEmpty then p.rules.toArray else d.rules
        angle := d.angle <|> some p.turnAngle
        scale := d.scale <|> some p.lengthFactor }

end Draft

end TurtleGrammar
