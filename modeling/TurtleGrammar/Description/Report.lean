import TurtleGrammar.LSystem.Growth
import TurtleGrammar.Description.Draft

/-! # Reports — errors as a reader of them sees them

    An error is reported as a chain: what failed, then why, then why that, and
    so on down to the root cause.  The causes themselves are values of the
    types below; the chain is only their wording. -/

namespace TurtleGrammar

/-- Why a line of a description is rejected. -/
inductive LineFault where
  | unreadable
  /-- It is wrong by itself. -/
  | faulty (keyword : Word) (fault : Fault)
  /-- An earlier line has set the same entry. -/
  | repeated (entry : Entry)
deriving DecidableEq

/-- Why a description cannot be read. -/
inductive ReadError where
  | noSuchFile (name : String)
  /-- A line is rejected; lines are counted from `1`, in words that wrap around. -/
  | atLine (name : String) (number : Int32) (fault : LineFault)
  /-- No line is wrong, but these slots are not set. -/
  | incomplete (name : String) (unset : List Slot)
deriving DecidableEq

/-- A link in the chain of a report. -/
inductive Report where
  | message (text : String)
  /-- A description asks for a preset that does not exist. -/
  | unknownPreset (name : String)
  | overrun (e : Overrun)
  /-- The system or the encoding is at fault, not the description. -/
  | system (text : String)

namespace Report

/-- The wording of a link. -/
def text : Report → String
  | message text => text
  | unknownPreset name => (Fault.unknownPreset name).message
  | overrun e => e.message
  | system text => text

/-- The wording of a link in general terms. -/
def description : Report → String
  | unknownPreset _ => "unknown preset"
  | overrun _ => Overrun.description
  | r => r.text

end Report

/-- The link for a fault. -/
def Fault.report : Fault → Report
  | unknownPreset name => .unknownPreset name
  | fault => .message fault.message

/-- What stands before the colon of a line's report, and the causes after it. -/
def LineFault.reports : LineFault → String × List Report
  | unreadable => ("read error", [.system "stream did not contain valid UTF-8"])
  | faulty keyword fault =>
      ("parse error",
        [.message ("while parsing keyword " ++ String.ofList keyword), fault.report])
  | repeated entry => ("parse error", [.message entry.repeatedMessage])

/-- The chain of an error, outermost link first. -/
def ReadError.reports : ReadError → List Report
  | noSuchFile name =>
      [.message s!"opening {name}", .system "No such file or directory (os error 2)"]
  | atLine name number fault =>
      let (what, causes) := fault.reports
      .message s!"{name}:{number}: {what}" :: causes
  | incomplete name unset =>
      let fields := ", ".intercalate (unset.map Slot.name)
      [.message s!"{name}: the following field(s) were unset: {fields}"]

/-- The chain of an overrun. -/
def Overrun.reports (e : Overrun) : List Report := [.overrun e]

end TurtleGrammar
