import TurtleGrammar.RuleSet

/-! # Lines — from bytes to tokens, with blanks between them

    A text is cut into lines at line feeds and nowhere else, before anything is
    decoded, so that a byte that is no text spoils its own line only.  What
    follows a `#` is a comment, wherever the `#` stands; what precedes it is a
    sequence of tokens separated by blanks.

    Blanks are the characters with the Unicode property `White_Space`, and no
    others: in particular the zero-width space and the byte order mark are not
    blank. -/

namespace TurtleGrammar

/-- The code points of the blanks, in ascending order. -/
def blanks : List Nat :=
  [0x09, 0x0a, 0x0b, 0x0c, 0x0d, 0x20, 0x85, 0xa0, 0x1680,
   0x2000, 0x2001, 0x2002, 0x2003, 0x2004, 0x2005, 0x2006, 0x2007, 0x2008, 0x2009, 0x200a,
   0x2028, 0x2029, 0x202f, 0x205f, 0x3000]

/-- Whether a character is blank. -/
def isBlank (c : Char) : Bool := blanks.contains c.toNat

namespace Line

/-- The byte that ends a line. -/
def feed : UInt8 := 10

/-- The lines of a text, without the line feeds.  A text that ends in a line feed has
    no further line after it. -/
def split (bytes : List UInt8) : List (List UInt8) :=
  let lines := bytes.splitOn feed
  if lines.getLast? = some [] then lines.dropLast else lines

/-- The characters of a line, if its bytes are UTF-8. -/
def decode? (line : List UInt8) : Option (List Char) :=
  (String.fromUTF8? ⟨line.toArray⟩).map String.toList

/-- The part of a line before its comment. -/
def uncomment (line : List Char) : List Char := line.takeWhile (· != '#')

/-- The tokens of a line: its longest runs without a blank, comment left out. -/
def tokens (line : List Char) : List Word :=
  ((uncomment line).splitOnP isBlank).filter (!·.isEmpty)

end Line

end TurtleGrammar
