import TurtleGrammar.Text.Line
import TurtleGrammar.Description.Grammar
import TurtleGrammar.Description.Report

/-! # Reading — from the bytes of a description to its grammar

    Lines are read in order and the first one that is rejected ends the
    reading: what stands after it has no influence on the error.  A line without
    tokens says nothing, but it is counted.  Lines are counted in signed words of
    32 bits, so line `2 ^ 31` has the number `-2147483648`.  Only when all lines
    have been read is the draft filled from its preset and checked to be
    complete. -/

namespace TurtleGrammar

/-- What a line says on its own, if it says anything. -/
def readLine (line : List UInt8) : Except LineFault (Option Setting) :=
  match Line.decode? line with
  | none => .error .unreadable
  | some cs =>
      match Line.tokens cs with
      | [] => .ok none
      | keyword :: tokens =>
          match Setting.read keyword tokens with
          | .error fault => .error (.faulty keyword fault)
          | .ok s => .ok (some s)

namespace Draft

/-- Takes up a line. -/
def addLine (d : Draft) (line : List UInt8) : Except LineFault Draft :=
  match readLine line with
  | .error fault => .error fault
  | .ok none => .ok d
  | .ok (some s) => (d.add s).mapError .repeated

/-- Takes up lines in order, the first of them having the given number, and stops at the
    first one that is rejected.  The number after the greatest is the least. -/
def addLines : Draft → Int32 → List (List UInt8) → Except (Int32 × LineFault) Draft
  | d, _, [] => .ok d
  | d, number, line :: lines =>
      match d.addLine line with
      | .error fault => .error (number, fault)
      | .ok d => d.addLines (number + 1) lines

end Draft

namespace Grammar

/-- Reads a description from its lines. -/
def ofLines (name : String) (lines : List (List UInt8)) : Except ReadError Grammar :=
  match Draft.addLines {} 1 lines with
  | .error (number, fault) => .error (.atLine name number fault)
  | .ok d => d.complete.mapError (.incomplete name)

/-- Reads a description from its bytes.  The name appears in messages only. -/
def ofBytes (name : String) (bytes : List UInt8) : Except ReadError Grammar :=
  ofLines name (Line.split bytes)

/-- Reads a description from a text. -/
def ofText (name : String) (text : String) : Except ReadError Grammar :=
  ofBytes name text.toUTF8.data.toList

/-- Reads a description from the content of a file, which is `none` when there is no
    such file. -/
def ofFile (name : String) (content : Option (List UInt8)) : Except ReadError Grammar :=
  match content with
  | none => .error (.noSuchFile name)
  | some bytes => ofBytes name bytes

end Grammar

end TurtleGrammar
