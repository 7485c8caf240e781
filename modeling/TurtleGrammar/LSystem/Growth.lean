import TurtleGrammar.LSystem

/-! # Bounded growth — generations that may not pass a length

    Growth is exponential for most rule sets, so a caller may cap it.  The cap
    is checked before each pass, on the length that the pass is going to
    produce: a generation beyond the cap is refused without being built.  The
    seed is checked as well, though it already exists.

    A refusal says which cap was hit, by what length, and what had been grown
    until then. -/

namespace TurtleGrammar

/-- Why growth stopped early: a generation would have passed the limit. -/
structure Overrun where
  limit : Nat
  /-- The length of the generation that was refused. -/
  actual : Nat
  /-- The system as it was when the generation was refused. -/
  reached : LSystem
deriving DecidableEq

namespace Overrun

/-- The class of error in general terms. -/
def description : String := "expansion exceeds length limit"

/-- The error at hand. -/
def message (e : Overrun) : String :=
  s!"expansion would produce {e.actual} symbols (limit is {e.limit})"

end Overrun

namespace LSystem

/-- Grows `n` generations of at most `limit` symbols each, or stops before the first
    longer one. -/
def advanceWithin (limit : Nat) : Nat → LSystem → Except Overrun LSystem
  | 0, s => .ok s
  | n + 1, s =>
      let next := s.nextLength
      if limit < next then .error ⟨limit, next, s⟩ else advanceWithin limit n s.advance

/-- Grows `n` generations under an optional cap, which the newest generation has to
    respect as well. -/
def grow (limit : Option Nat) (n : Nat) (s : LSystem) : Except Overrun LSystem :=
  match limit with
  | none => .ok (s.advanceBy n)
  | some limit =>
      let length := s.current.length
      if limit < length then .error ⟨limit, length, s⟩ else advanceWithin limit n s

/-! ## The check in 64 bits -/

/-- Whether a pass is refused may as well be decided on a count in 64 bits, as long as the
    limit and the length of the next generation both fit. -/
theorem advanceWithin_succ_eq_count {limit : Nat} (hlimit : limit < UInt64.size) (n : Nat)
    {s : LSystem} (hfits : s.nextLength < UInt64.size) :
    advanceWithin limit (n + 1) s
      = if UInt64.ofNat limit < s.rules.applyCount s.current
        then .error ⟨limit, (s.rules.applyCount s.current).toNat, s⟩
        else advanceWithin limit n s.advance := by
  have hcount : (s.rules.applyCount s.current).toNat = s.nextLength := by
    rw [RuleSet.toNat_applyCount]
    exact Nat.mod_eq_of_lt hfits
  rw [advanceWithin, hcount]
  simp only [RuleSet.lt_applyCount_iff hlimit hfits]
  rfl

end LSystem

end TurtleGrammar
