import Mathlib.Algebra.BigOperators.Finprod
import TurtleGrammar.Preset
import TurtleGrammar.Proofs.Decomposition
import TurtleGrammar.Proofs.Tallies

/-! # Populations — how often each symbol occurs

    A pass replaces every occurrence of a symbol by the same word, wherever it
    stands.  So the number of times that a symbol occurs after the pass is a sum
    over the symbols before it: as often as each of them occurs, it has the same
    offspring.

    The sums run over all symbols.  Only finitely many occur in a word, and the
    others contribute nothing (`count_flatMap_eq`).

    The law holds for one pass and for any number of them, and nothing in it
    asks where a symbol stands.  Seeds with the same symbols in another order
    grow into words with the same symbols in another order, and what depends on
    the symbols alone, like the length of a word or the steps of its walk, is
    the same for both. -/

namespace TurtleGrammar

/-- Replacing every symbol, one counts the replacements of each symbol as often as it
    occurs. -/
theorem count_flatMap_eq (f : Char → Word) (w : Word) (x : Char) :
    (w.flatMap f).count x = ∑ᶠ c, w.count c * (f c).count x := by
  have hoccurs : Function.support (fun c => w.count c * (f c).count x) ⊆ w.toFinset := by
    intro c hc
    have hcount : w.count c ≠ 0 := left_ne_zero_of_mul hc
    exact List.mem_toFinset.mpr (List.count_pos_iff.mp (Nat.pos_of_ne_zero hcount))
  rw [List.count_flatMap, Finset.sum_list_map_count, finsum_eq_sum_of_support_subset _ hoccurs]
  rfl

namespace RuleSet

/-- How often `x` occurs in what `c` becomes. -/
def offspring (r : RuleSet) (c x : Char) : ℕ :=
  match r.get? c with
  | some w => w.count x
  | none => if c = x then 1 else 0

/-- What becomes of a symbol has as many of another as are its offspring. -/
theorem count_image (r : RuleSet) (c x : Char) : (r.image c).count x = r.offspring c x := by
  rw [offspring]
  cases hc : r.get? c with
  | some w => rw [image_of_some hc]
  | none =>
      rw [image_of_none hc, List.count_singleton]
      simp only [beq_iff_eq]

/-- **Step lemma**: the population after a pass. -/
theorem count_apply (r : RuleSet) (w : Word) (x : Char) :
    (r.apply w).count x = ∑ᶠ c, w.count c * r.offspring c x := by
  rw [apply, count_flatMap_eq]
  simp only [count_image]

end RuleSet

namespace LSystem

/-- **Run lemma**: the population of any generation, from that of the seed and from what its
    symbols grow into. -/
theorem count_grown (r : RuleSet) (n : Nat) (w : Word) (x : Char) :
    (grown r n w).count x = ∑ᶠ c, w.count c * (grown r n [c]).count x := by
  rw [grown_eq_flatMap, count_flatMap_eq]

/-- So it is all that is needed of the seed. -/
theorem count_grown_congr {u v : Word} (h : ∀ x, u.count x = v.count x) (r : RuleSet) (n : Nat)
    (x : Char) : (grown r n u).count x = (grown r n v).count x := by
  rw [count_grown, count_grown r n v]
  simp only [h]

/-- Words with the same symbols in another order grow into words with the same symbols. -/
theorem grown_perm {u v : Word} (h : u.Perm v) (r : RuleSet) (n : Nat) :
    (grown r n u).Perm (grown r n v) := by
  refine List.perm_iff_count.mpr ?_
  exact count_grown_congr (List.perm_iff_count.mp h) r n

/-- **Growth of populations**: a generation has as many of a symbol as the symbols of the
    generation before it have offspring, each counted as often as it occurs.  Seeds that have
    the same symbols equally often therefore have generations of which this is true as well.
    They are of the same length and are walked in the same number of steps, whatever the
    settings.  Rearranged seeds have rearranged generations. -/
theorem population_grows (r : RuleSet) (n : Nat) (seed : Word) :
    (∀ x, (grown r (n + 1) seed).count x
        = ∑ᶠ c, (grown r n seed).count c * r.offspring c x)
      ∧ (∀ seed', (∀ x, seed.count x = seed'.count x) →
          (∀ x, (grown r n seed).count x = (grown r n seed').count x)
            ∧ (grown r n seed).length = (grown r n seed').length
            ∧ ∀ t t' : Turtle, (t.run (grown r n seed)).stats.forwardSteps
                = (t'.run (grown r n seed')).stats.forwardSteps)
      ∧ ∀ seed', seed.Perm seed' → (grown r n seed).Perm (grown r n seed') := by
  refine ⟨?_, ?_, fun seed' hperm => grown_perm hperm r n⟩
  · intro x
    rw [grown_succ, RuleSet.count_apply]
  · intro seed' hsame
    have hcounts : ∀ x, (grown r n seed).count x = (grown r n seed').count x :=
      count_grown_congr hsame r n
    refine ⟨hcounts, (List.perm_iff_count.mpr hcounts).length_eq, ?_⟩
    -- steps forward are the symbols `F` of the word, wherever the turtle stands
    intro t t'
    rw [Turtle.forwardSteps_run, Turtle.forwardSteps_run, hcounts]

/-- The dragon, begun at its other end. -/
theorem population_grows_dragon :
    let grow := grown Preset.dragon.ruleSet 6
    "F+XY".toList.Perm "YX+F".toList
      ∧ (grow "F+XY".toList).Perm (grow "YX+F".toList)
      ∧ ∀ t : Turtle, (t.run (grow "F+XY".toList)).stats.forwardSteps
          = (t.run (grow "YX+F".toList)).stats.forwardSteps := by
  intro grow
  have hperm : "F+XY".toList.Perm "YX+F".toList := by decide
  obtain ⟨-, hsame, hrearranged⟩ := population_grows Preset.dragon.ruleSet 6 "F+XY".toList
  obtain ⟨-, -, hsteps⟩ := hsame "YX+F".toList (List.perm_iff_count.mp hperm)
  exact ⟨hperm, hrearranged _ hperm, fun t => hsteps t t⟩

end LSystem

end TurtleGrammar
