import TurtleGrammar.RuleSet
import TurtleGrammar.Number.Decimal

/-! # Arguments — tokens read against a list of parameters

    The tokens after a keyword are its arguments.  A keyword announces its
    parameters, each with a name and a type, and `readArgs` reads the tokens
    against them from left to right.  The leftmost problem is the one that is
    reported; tokens in excess are a problem only once all parameters have been
    read. -/

namespace TurtleGrammar

/-- What a token can be read as. -/
inductive ArgType where
  | text
  | symbol
  /-- A number with a fraction or an exponent. -/
  | number
  | count
deriving DecidableEq

namespace ArgType

/-- The type as it is called in messages. -/
def name : ArgType → String
  | text => "String"
  | symbol => "char"
  | number => "f64"
  | count => "usize"

/-- What reading a token of the type gives. -/
def Value : ArgType → Type
  | text => Word
  | symbol => Char
  | number => Float
  | count => Nat

/-- Reads a token. -/
def read? : (type : ArgType) → Word → Option type.Value
  | text, token => some token
  | symbol, [c] => some c
  | symbol, _ => none
  | number, token => readFloat? token
  | count, token => readCount? token

end ArgType

/-- A parameter of a keyword. -/
structure Param where
  name : String
  type : ArgType

/-- A value for every parameter. -/
def Args : List Param → Type
  | [] => Unit
  | p :: rest => p.type.Value × Args rest

/-- Why tokens do not match the parameters. -/
inductive ArgError where
  /-- There is no token left for the named parameter. -/
  | missing (param : String)
  /-- A token cannot be read as the type of its parameter. -/
  | malformed (token : Word) (type : ArgType)
  /-- There are more tokens than parameters; this is the first of them. -/
  | extra (token : Word)
deriving DecidableEq

/-- The wording of an error. -/
def ArgError.message : ArgError → String
  | missing param => s!"missing token for {param}"
  | malformed token type =>
      "error parsing \"" ++ String.ofList token ++ "\" as type " ++ type.name
  | extra token => "found extra token(s) starting with \"" ++ String.ofList token ++ "\""

/-- Reads tokens against parameters, one for one. -/
def readArgs : (params : List Param) → List Word → Except ArgError (Args params)
  | [], [] => .ok ()
  | [], token :: _ => .error (.extra token)
  | p :: _, [] => .error (.missing p.name)
  | p :: params, token :: tokens =>
      match p.type.read? token with
      | none => .error (.malformed token p.type)
      | some value => (readArgs params tokens).map (value, ·)

end TurtleGrammar
