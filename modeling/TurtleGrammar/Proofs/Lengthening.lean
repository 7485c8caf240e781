import Mathlib.Order.Monotone.Basic
import TurtleGrammar.Preset
import TurtleGrammar.Proofs.Caps

/-! # Lengthening — where only the last generation counts for a cap

    A cap is for every generation on the way, the seed included.  A rule that
    erases its symbol can make a long generation end in a short one, and then
    the cap refuses what would have come out within it.

    Without such a rule no generation is shorter than the one before it: a
    pass leaves at least one symbol for each.  The last generation is then the
    longest, and growth stays under a cap exactly when it does. -/

namespace TurtleGrammar

namespace RuleSet

/-- No symbol is erased. -/
def NonErasing (r : RuleSet) : Prop := ∀ c w, r.get? c = some w → w ≠ []

/-- Something becomes of every symbol. -/
theorem NonErasing.image_ne_nil {r : RuleSet} (h : r.NonErasing) (c : Char) : r.image c ≠ [] := by
  cases hc : r.get? c with
  | none =>
      rw [image_of_none hc]
      exact List.cons_ne_nil c []
  | some w =>
      rw [image_of_some hc]
      exact h c w hc

/-- **Step lemma**: a pass shortens nothing. -/
theorem NonErasing.length_le_apply {r : RuleSet} (h : r.NonErasing) (w : Word) :
    w.length ≤ (r.apply w).length := by
  induction w with
  | nil => exact Nat.le_refl 0
  | cons c w ih =>
      have hc : 0 < (r.image c).length := List.length_pos_iff.mpr (h.image_ne_nil c)
      rw [apply_cons, List.length_append, List.length_cons]
      omega

end RuleSet

/-- **Run lemma**: nor does any number of passes. -/
theorem LSystem.monotone_length {s : LSystem} (h : s.rules.NonErasing) :
    Monotone fun n => (s.advanceBy n).current.length := by
  refine monotone_nat_of_le_succ ?_
  intro n
  rw [current_advanceBy, current_advanceBy]
  exact h.length_le_apply (s.ahead n)

namespace Grammar

/-- **The step-wise limit is the final limit**: without erasing rules the generations never get
    shorter, so a cap admits all of them as soon as it admits the last. -/
theorem expand_of_nonErasing (g : Grammar) (h : g.ruleSet.NonErasing) :
    (Monotone fun n => (g.lsystem.advanceBy n).current.length)
      ∧ ∀ limit, (∃ s, (g.capped (some limit)).expand = .ok s)
          ↔ (g.lsystem.advanceBy g.generations).current.length ≤ limit := by
  have hmono : Monotone fun n => (g.lsystem.advanceBy n).current.length :=
    LSystem.monotone_length h
  have hlength : ∀ k, (g.lsystem.advanceBy k).current.length = (g.generation k).length := by
    intro k
    rw [LSystem.current_advanceBy, ahead_lsystem]
  refine ⟨hmono, ?_⟩
  intro limit
  simp only [expand_capped_eq_ok_iff, ← hlength]
  constructor
  · rintro ⟨s, hwithin, -⟩
    exact hwithin g.generations (Nat.le_refl _)
  · -- by monotonicity the last generation is the longest
    intro hlast
    refine ⟨_, ?_, rfl⟩
    intro k hk
    exact Nat.le_trans (hmono hk) hlast

/-- Two generations of the snowflake have 112 symbols. -/
theorem expand_of_nonErasing_koch :
    let g : Grammar :=
      { seed := Preset.koch.seed, rules := Preset.koch.rules, generations := 2 }
    g.ruleSet.NonErasing ∧ (∃ s, (g.capped (some 112)).expand = .ok s)
      ∧ ¬ ∃ s, (g.capped (some 111)).expand = .ok s := by
  intro g
  have hnonErasing : g.ruleSet.NonErasing := by
    intro c w hget
    have hmem : (c, w) ∈ Preset.koch.rules := (RuleSet.get?_ofList (by decide)).mp hget
    rw [Preset.koch, List.mem_singleton] at hmem
    rw [(Prod.mk.inj hmem).2]
    decide
  have hlength : (g.lsystem.advanceBy g.generations).current.length = 112 := by decide +kernel
  obtain ⟨-, hcap⟩ := expand_of_nonErasing g hnonErasing
  rw [hcap, hcap, hlength]
  exact ⟨hnonErasing, Nat.le_refl 112, by decide⟩

/-- With an erasing rule the seed can be too long although the last generation is not. -/
example :
    let g : Grammar := { seed := "FX".toList, rules := [('X', [])], generations := 1 }
    (g.lsystem.advanceBy 1).current.length = 1 ∧ (g.capped (some 1)).expand.isOk = false := by
  decide +kernel

end Grammar

end TurtleGrammar
