import TurtleGrammar.RuleSet

/-! # L-systems — a seed, its rules and the generations grown so far

    An L-system starts from a seed word and replaces all symbols of its newest
    generation at once, as often as it is told to.  Every generation is kept:
    generation `0` is the seed, and generation `i + 1` is one pass over
    generation `i`.

    The history cannot be empty, since the seed is a field of its own; only
    what was derived from it grows and is dropped again by `LSystem.reset`. -/

namespace TurtleGrammar

/-- A seed word under a rule set, with the generations derived from it. -/
structure LSystem where
  rules : RuleSet
  seed : Word
  /-- Generations `1, 2, …` in order. -/
  derived : Array Word := #[]
deriving DecidableEq

namespace LSystem

/-- The system that has not been advanced yet. -/
def new (seed : Word) (rules : RuleSet) : LSystem := { rules, seed }

/-- All generations, oldest first. -/
def history (s : LSystem) : List Word := s.seed :: s.derived.toList

/-- How many generations there are, the seed included. -/
def generations (s : LSystem) : Nat := s.derived.size + 1

/-- Generation `i`, once it has been grown. -/
def generation? (s : LSystem) : Nat → Option Word
  | 0 => some s.seed
  | i + 1 => s.derived[i]?

/-- The newest generation. -/
def current (s : LSystem) : Word := s.derived.back?.getD s.seed

/-- The length that the next generation will have. -/
def nextLength (s : LSystem) : Nat := s.rules.applyLength s.current

/-- Grows one generation: a pass over the newest one is added to the history. -/
def advance (s : LSystem) : LSystem :=
  { s with derived := s.derived.push (s.rules.apply s.current) }

/-- Grows `n` generations. -/
def advanceBy : Nat → LSystem → LSystem
  | 0, s => s
  | n + 1, s => advanceBy n s.advance

/-- Drops every generation but the seed. -/
def reset (s : LSystem) : LSystem := { s with derived := #[] }

/-! ## The newest generation -/

@[simp] theorem current_new (w : Word) (r : RuleSet) : (new w r).current = w := rfl

/-- After a pass the newest generation is what the pass made of the one before. -/
@[simp] theorem current_advance (s : LSystem) :
    s.advance.current = s.rules.apply s.current := by
  simp [advance, current]

@[simp] theorem rules_advance (s : LSystem) : s.advance.rules = s.rules := rfl

/-- A pass adds one generation at the end of the history and keeps the others. -/
@[simp] theorem history_advance (s : LSystem) :
    s.advance.history = s.history ++ [s.rules.apply s.current] := by
  simp [advance, history]

/-- The predicted length is the length of the generation that comes next. -/
theorem nextLength_eq (s : LSystem) : s.nextLength = s.advance.current.length := by
  simp [nextLength, RuleSet.applyLength_eq]

end LSystem

end TurtleGrammar
