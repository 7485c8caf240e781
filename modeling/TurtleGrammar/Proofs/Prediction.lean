import Mathlib.Algebra.GroupWithZero.Nat
import TurtleGrammar.Proofs.Canonical

/-! # Predicted lengths — how long a generation will be before it is grown

    The length of the next generation is counted symbol by symbol, without
    building the word.  A symbol counts for the length of its replacement, so
    an erased one counts for nothing, and for one when it has no rule.

    Such a count is kept in a 64-bit word and wraps around (`toNat_applyCount`).
    It is exact as soon as the whole length fits, since no part of the sum is
    greater than the sum.

    Predictions leave no trace: what a system predicts between its passes are
    the lengths of the generations that it grows without being asked. -/

namespace TurtleGrammar

/-! ## Counting a pass -/

namespace RuleSet

/-- How many symbols become of one. -/
theorem length_image (r : RuleSet) (c : Char) :
    (r.image c).length = ((r.get? c).map List.length).getD 1 := by
  cases hc : r.get? c with
  | none => rw [image_of_none hc]; rfl
  | some w => rw [image_of_some hc]; rfl

/-- The length of a pass is the sum of what becomes of each symbol. -/
theorem applyLength_eq_sum (r : RuleSet) (w : Word) :
    r.applyLength w = (w.map fun c => ((r.get? c).map List.length).getD 1).sum := by
  rw [applyLength_eq, apply, List.length_flatMap]
  simp only [length_image]

end RuleSet

/-- A word has at most as many symbols as its text has bytes. -/
theorem Word.length_le_bytes (w : Word) : w.length ≤ (String.ofList w).utf8ByteSize := by
  induction w with
  | nil => exact Nat.zero_le _
  | cons c w ih =>
      have hc : 0 < c.utf8Size := c.utf8Size_pos
      rw [String.ofList_cons, String.utf8ByteSize_append, String.utf8ByteSize_singleton,
        List.length_cons]
      omega

/-! ## Predictions along a run -/

namespace LSystem

/-- Seen after `m` passes, every generation is `m` passes nearer. -/
theorem ahead_advanceBy (m n : Nat) (s : LSystem) :
    (advanceBy m s).ahead n = s.ahead (m + n) := by
  rw [← current_advanceBy, advanceBy_advanceBy, current_advanceBy, Nat.add_comm]

theorem nextLength_advanceBy (n : Nat) (s : LSystem) :
    (advanceBy n s).nextLength = (s.ahead (n + 1)).length := by
  rw [nextLength_eq_ahead, ahead_advanceBy]

/-- **Run lemma**: the lengths of the generations that are grown are those predicted before
    each of them. -/
theorem lengths_advanceBy (n : Nat) (s : LSystem) :
    ((s.advanceBy n).history.drop s.generations).map List.length
      = (List.range n).map fun k => (s.advanceBy k).nextLength := by
  rw [history_advanceBy, List.drop_left' s.length_history, List.map_map]
  refine List.map_congr_left ?_
  intro k _
  exact (nextLength_advanceBy k s).symm

/-- **Predictions come true**: however a system has been used, it predicts the number of
    symbols of the word that the next pass gives, each symbol counting for what becomes of
    it.  A 64-bit count of them is exact when the number fits, and the number is never more
    than the bytes that the word takes.  What is predicted before each of the next passes is
    what the history shows after them. -/
theorem nextLength_applyAll (seed : Word) (rules : RuleSet) (ops : List SystemOp) :
    let s := (new seed rules).applyAll ops
    s.nextLength = s.advance.current.length
      ∧ s.nextLength = (s.current.map fun c => ((rules.get? c).map List.length).getD 1).sum
      ∧ (s.nextLength < 2 ^ 64 → (rules.applyCount s.current).toNat = s.nextLength)
      ∧ s.nextLength ≤ (String.ofList s.advance.current).utf8ByteSize
      ∧ ∀ n, ((s.advanceBy n).history.drop s.generations).map List.length
          = (List.range n).map fun k => (s.advanceBy k).nextLength := by
  intro s
  obtain ⟨n, hn⟩ := applyAll_advanceBy seed rules 0 ops
  have hrules : s.rules = rules := (congrArg LSystem.rules hn).trans (rules_advanceBy n _)
  refine ⟨s.nextLength_eq, ?_, ?_, ?_, fun n => lengths_advanceBy n s⟩
  · rw [nextLength, hrules, RuleSet.applyLength_eq_sum]
  · -- the count is the length modulo the range of the counter
    intro hfits
    rw [← hrules, RuleSet.toNat_applyCount]
    exact Nat.mod_eq_of_lt hfits
  · rw [nextLength_eq]
    exact Word.length_le_bytes _

/-- Symbols of several bytes, one that is erased and one that is kept: the second pass makes
    seven symbols of five. -/
theorem nextLength_applyAll_accented :
    let rules := RuleSet.ofList [('é', "éπ".toList), ('F', "F→".toList), ('X', [])]
    let s := (new "éFX+".toList rules).applyAll [.advance]
    s.current = "éπF→+".toList ∧ s.nextLength < 2 ^ 64 ∧ s.advance.current.length = 7
      ∧ (rules.applyCount s.current).toNat = 7 := by
  intro rules s
  have hseven : s.nextLength = 7 := by decide +kernel
  have hfits : s.nextLength < 2 ^ 64 := by
    rw [hseven]
    decide
  obtain ⟨hlength, -, hcount, -, -⟩ :=
    nextLength_applyAll "éFX+".toList rules [.advance]
  exact ⟨by decide +kernel, hfits, hlength.symm.trans hseven, (hcount hfits).trans hseven⟩

end LSystem

end TurtleGrammar
