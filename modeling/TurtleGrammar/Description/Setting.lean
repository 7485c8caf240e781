import TurtleGrammar.Preset
import TurtleGrammar.Description.Argument

/-! # Settings — what a single line of a description says

    A line names a keyword and gives its arguments.  Read on its own, it is a
    `Setting`: one value for one slot, or one rule.  Whether it may stand beside
    the other lines of the description is decided elsewhere; here a line is
    wrong only if it is wrong by itself. -/

namespace TurtleGrammar

/-- The words that a line can begin with. -/
inductive Keyword where
  | preset
  | seed
  | rule
  | angleRad
  | angleDeg
  | headingRad
  | headingDeg
  | length
  | scale
  | position
  | generations
  | maxLength
deriving DecidableEq

namespace Keyword

/-- All keywords. -/
def all : List Keyword :=
  [preset, seed, rule, angleRad, angleDeg, headingRad, headingDeg, length, scale, position,
   generations, maxLength]

/-- The spelling of a keyword. -/
def name : Keyword → String
  | preset => "preset"
  | seed => "axiom"
  | rule => "rule"
  | angleRad => "angle_rad"
  | angleDeg => "angle_deg"
  | headingRad => "heading_rad"
  | headingDeg => "heading_deg"
  | length => "length"
  | scale => "scale"
  | position => "position"
  | generations => "generations"
  | maxLength => "max_length"

/-- The keyword with a spelling. -/
def ofToken? (token : Word) : Option Keyword := all.find? (·.name.toList = token)

end Keyword

/-- What one line says.  Angles are in radians, however the line gives them. -/
inductive Setting where
  | preset (p : Preset)
  | seed (w : Word)
  | rule (symbol : Char) (replacement : Word)
  | angle (radians : Float)
  | heading (radians : Float)
  | length (l : Float)
  | scale (factor : Float)
  | position (p : Point Float)
  | generations (n : Nat)
  | maxLength (n : Nat)

/-- Why a line is wrong by itself. -/
inductive Fault where
  | unknownKeyword
  /-- The arguments do not match the keyword's parameters. -/
  | argument (e : ArgError)
  | unknownPreset (name : String)
  /-- A length is infinite or no number. -/
  | lengthNotFinite
  /-- A scale is not a positive finite number. -/
  | scaleNotPositive
deriving DecidableEq

/-- The wording of a fault. -/
def Fault.message : Fault → String
  | unknownKeyword => "unrecognized keyword"
  | argument e => e.message
  | unknownPreset name =>
      "unknown preset: \"" ++ name ++ "\", expected one of: " ++ ", ".intercalate Preset.names
  | lengthNotFinite => "length must be finite"
  | scaleNotPositive => "scale must be positive"

/-- The parameters of a keyword, and what their values amount to. -/
structure Form where
  params : List Param
  /-- The setting that the arguments make, if they are in range. -/
  make : Args params → Except Fault Setting

/-- Reads the arguments of a line by its form. -/
def Form.read (form : Form) (tokens : List Word) : Except Fault Setting :=
  match readArgs form.params tokens with
  | .error e => .error (.argument e)
  | .ok args => form.make args

namespace Keyword

/-- A form with one parameter. -/
def unary (name : String) (type : ArgType) (make : type.Value → Except Fault Setting) : Form where
  params := [⟨name, type⟩]
  make := fun (value, ()) => make value

/-- A form with two parameters. -/
def binary (p q : Param) (make : p.type.Value → q.type.Value → Except Fault Setting) : Form where
  params := [p, q]
  make := fun (first, second, ()) => make first second

/-- The preset of a name. -/
def makePreset (name : Word) : Except Fault Setting :=
  let name := String.ofList name
  match Preset.find? name with
  | some p => .ok (.preset p)
  | none => .error (.unknownPreset name)

/-- Lengths have to be finite. -/
def makeLength (l : Float) : Except Fault Setting :=
  if l.isFinite then .ok (.length l) else .error .lengthNotFinite

/-- Scales have to be positive and finite. -/
def makeScale (factor : Float) : Except Fault Setting :=
  if 0 < factor && factor.isFinite then .ok (.scale factor) else .error .scaleNotPositive

/-- The form of a keyword that is followed by `count` arguments.  The number matters for
    rules only: a rule with a bare symbol erases it, and any other has two
    parameters. -/
def form (k : Keyword) (count : Nat) : Form :=
  match k with
  | preset => unary "name" .text makePreset
  | seed => unary "axiom" .text fun w => .ok (.seed w)
  | rule =>
      if count = 1 then unary "symbol" .symbol fun c => .ok (.rule c [])
      else binary ⟨"symbol", .symbol⟩ ⟨"replacement", .text⟩ fun c w => .ok (.rule c w)
  | angleRad => unary "angle" .number fun a => .ok (.angle a)
  | angleDeg => unary "angle" .number fun a => .ok (.angle (Angle.ofDegrees a))
  | headingRad => unary "heading" .number fun a => .ok (.heading a)
  | headingDeg => unary "heading" .number fun a => .ok (.heading (Angle.ofDegrees a))
  | length => unary "length" .number makeLength
  | scale => unary "scale" .number makeScale
  | position => binary ⟨"x", .number⟩ ⟨"y", .number⟩ fun x y => .ok (.position ⟨x, y⟩)
  | generations => unary "n" .count fun n => .ok (.generations n)
  | maxLength => unary "n" .count fun n => .ok (.maxLength n)

/-- Every keyword is read back from its spelling. -/
@[simp] theorem ofToken?_name (k : Keyword) : ofToken? k.name.toList = some k := by
  cases k <;> decide

end Keyword

/-- Reads a line from its keyword and its arguments. -/
def Setting.read (keyword : Word) (tokens : List Word) : Except Fault Setting :=
  match Keyword.ofToken? keyword with
  | none => .error .unknownKeyword
  | some k => (k.form tokens.length).read tokens

end TurtleGrammar
