import Mathlib.Logic.Function.Iterate
import TurtleGrammar.Proofs.Canonical

/-! # Decomposition — what grows from a word grows from its symbols

    A pass replaces every symbol on its own, so no generation depends on what
    stands next to what in an earlier one.  `LSystem.grown r n` is what becomes
    of a word in `n` generations, as a system grows them.

    - **Parts grow apart** (`grown_append`): a pass respects the border between
      two words, hence so does any number of passes.
    - **Generations add up** (`grown_add`): to grow on from a generation is to
      have grown it in between.

    Together they take a later generation apart into what has grown from the
    single symbols of an earlier one. -/

namespace TurtleGrammar.LSystem

/-- The newest generation of a system that was made from the word and advanced `n` times. -/
def grown (r : RuleSet) (n : Nat) (w : Word) : Word := (advance^[n] (new w r)).current

theorem advance_iterate (n : Nat) (s : LSystem) : advance^[n] s = s.advanceBy n := by
  induction n generalizing s with
  | zero => rfl
  | succ n ih => exact ih s.advance

/-- What a word grows into is what lies ahead of a system with that seed. -/
theorem grown_eq_ahead (r : RuleSet) (n : Nat) (w : Word) : grown r n w = (new w r).ahead n := by
  rw [grown, advance_iterate, current_advanceBy]

/-- One more generation is one pass over the last. -/
theorem grown_succ (r : RuleSet) (n : Nat) (w : Word) :
    grown r (n + 1) w = r.apply (grown r n w) := by
  rw [grown_eq_ahead, grown_eq_ahead]
  rfl

theorem grown_nil (r : RuleSet) (n : Nat) : grown r n [] = [] := by
  induction n with
  | zero => rfl
  | succ n ih =>
      rw [grown_succ, ih]
      rfl

/-- Two words in a row grow apart from each other. -/
theorem grown_append (r : RuleSet) (n : Nat) (u v : Word) :
    grown r n (u ++ v) = grown r n u ++ grown r n v := by
  induction n with
  | zero => rfl
  | succ n ih => rw [grown_succ, grown_succ, grown_succ, ih, RuleSet.apply_append]

/-- Down to the single symbols: a word grows into what they grow into, one after the other. -/
theorem grown_eq_flatMap (r : RuleSet) (n : Nat) (w : Word) :
    grown r n w = w.flatMap fun c => grown r n [c] := by
  induction w with
  | nil => exact grown_nil r n
  | cons c w ih =>
      rw [List.flatMap_cons, ← ih, ← grown_append]
      rfl

/-- A word that has grown `m` generations grows on as any other word. -/
theorem grown_add (r : RuleSet) (m n : Nat) (w : Word) :
    grown r (m + n) w = grown r n (grown r m w) := by
  induction n with
  | zero => rfl
  | succ n ih => rw [← Nat.add_assoc, grown_succ, grown_succ, ih]

/-! ## Starting again from a generation -/

/-- The history lists what the seed has grown into. -/
theorem history_eq_grown (r : RuleSet) (n : Nat) (w : Word) :
    ((new w r).advanceBy n).history = (List.range (n + 1)).map fun k => grown r k w := by
  rw [history_new_advanceBy]
  refine List.map_congr_left ?_
  intro k _
  exact (grown_eq_ahead r k w).symm

/-- A system that starts from generation `m` of another has the rest of its history. -/
theorem history_restarted (r : RuleSet) (m n : Nat) (w : Word) :
    ((new (grown r m w) r).advanceBy n).history = ((new w r).advanceBy (m + n)).history.drop m := by
  have hsplit : List.range (m + n + 1) = List.range m ++ (List.range (n + 1)).map (m + ·) := by
    rw [Nat.add_assoc, List.range_add]
  rw [history_eq_grown, history_eq_grown, hsplit, List.map_append, List.map_map,
    List.drop_left' (by rw [List.length_map, List.length_range])]
  refine List.map_congr_left ?_
  intro k _
  exact (grown_add r m k w).symm

/-- Later passes leave a generation where it is. -/
theorem generation?_grown (r : RuleSet) (m n : Nat) (w : Word) :
    ((new w r).advanceBy (m + n)).generation? m = some (grown r m w) := by
  rw [generation?_eq, getElem?_history, ← grown_eq_ahead]
  exact ⟨Nat.le_add_right m n, rfl⟩

/-- **Decomposition**: what has grown after `m + n` generations is what the symbols of
    generation `m` grow into in `n` more, in their order.  Parts of a seed grow apart, and a
    system that starts again from generation `m` of another, advanced one at a time or all at
    once, goes through the generations that come after it. -/
theorem grown_decomposes (r : RuleSet) (m n : Nat) (w : Word) :
    grown r (m + n) w = (grown r m w).flatMap (fun c => grown r n [c])
      ∧ (∀ u v, grown r n (u ++ v) = grown r n u ++ grown r n v)
      ∧ ((new w r).advanceBy (m + n)).generation? m = some (grown r m w)
      ∧ ((new (grown r m w) r).advanceBy n).history
          = ((new w r).advanceBy (m + n)).history.drop m
      ∧ advance^[n] (new (grown r m w) r) = (new (grown r m w) r).advanceBy n := by
  refine ⟨?_, grown_append r n, generation?_grown r m n w, history_restarted r m n w,
    advance_iterate n _⟩
  rw [grown_add, grown_eq_flatMap]

end TurtleGrammar.LSystem
