import Mathlib.Algebra.Order.Group.Int
import Mathlib.Data.List.Infix
import Mathlib.Order.Bounds.Image
import TurtleGrammar.Proofs.Connected
import TurtleGrammar.Proofs.Walker

/-! # Tallies — what a walk counts can be read off its word

    A walk counts its steps, the depth of its branches and the ends of branches
    that were never begun.  The last two depend on how many branches are open,
    a number that stops at zero when branches are ended, and so on everything
    that was read before.  They have a closed form all the same.

    The height of a word (`rise`) is how many more branches it begins than it
    ends, below zero or not.  While a word is read,

    - the branches that are open are the greatest height of an end of the word,
    - the ends without a beginning are the greatest depth, below zero, of a
      beginning of the word,
    - the greatest number of open branches is the greatest height of any part
      of the word.

    A symbol at the end of a word adds one beginning and moves all ends by its
    own height, so each of the three maxima follows from those before it
    (`Tallies.read`). -/

namespace TurtleGrammar

/-! ## Heights -/

/-- How many more branches a word begins than it ends. -/
def rise (w : Word) : ℤ := w.count '[' - w.count ']'

@[simp] theorem rise_nil : rise [] = 0 := rfl

@[simp] theorem rise_opening : rise ['['] = 1 := rfl

@[simp] theorem rise_closing : rise [']'] = -1 := rfl

theorem rise_append (u v : Word) : rise (u ++ v) = rise u + rise v := by
  simp only [rise, List.count_append]
  omega

theorem rise_other {c : Char} (hopening : c ≠ '[') (hclosing : c ≠ ']') : rise [c] = 0 := by
  simp [rise, hopening, hclosing]

/-- The heights of the ends of a word. -/
def endings (w : Word) : Set ℤ := rise '' {u | u <:+ w}

/-- How deep below zero the beginnings of a word lead. -/
def descents (w : Word) : Set ℤ := (fun u => -rise u) '' {u | u <+: w}

/-- The heights of all parts of a word. -/
def climbs (w : Word) : Set ℤ := rise '' {u | u <:+: w}

/-- One more symbol moves every end by its height and adds the empty end. -/
theorem endings_concat (w : Word) (c : Char) :
    endings (w ++ [c]) = insert 0 ((· + rise [c]) '' endings w) := by
  ext k
  constructor
  · rintro ⟨u, hu, rfl⟩
    rcases List.suffix_concat_iff.mp hu with rfl | ⟨v, rfl, hv⟩
    · exact .inl rfl
    · exact .inr ⟨rise v, ⟨v, hv, rfl⟩, (rise_append v [c]).symm⟩
  · rintro (rfl | ⟨_, ⟨v, hv, rfl⟩, rfl⟩)
    · exact ⟨[], List.nil_suffix, rfl⟩
    · exact ⟨v ++ [c], List.suffix_concat_iff.mpr (.inr ⟨v, rfl, hv⟩), rise_append v [c]⟩

/-- One more symbol adds one beginning, the whole word. -/
theorem descents_concat (w : Word) (c : Char) :
    descents (w ++ [c]) = insert (-rise (w ++ [c])) (descents w) := by
  ext k
  constructor
  · rintro ⟨u, hu, rfl⟩
    rcases List.prefix_concat_iff.mp hu with rfl | hu
    · exact .inl rfl
    · exact .inr ⟨u, hu, rfl⟩
  · rintro (rfl | ⟨u, hu, rfl⟩)
    · exact ⟨w ++ [c], List.prefix_refl _, rfl⟩
    · exact ⟨u, List.prefix_concat_iff.mpr (.inr hu), rfl⟩

/-- One more symbol adds the parts that end with it. -/
theorem climbs_concat (w : Word) (c : Char) :
    climbs (w ++ [c]) = endings (w ++ [c]) ∪ climbs w := by
  ext k
  constructor
  · rintro ⟨u, hu, rfl⟩
    exact (List.infix_concat_iff.mp hu).imp (fun h => ⟨u, h, rfl⟩) fun h => ⟨u, h, rfl⟩
  · rintro (⟨u, hu, rfl⟩ | ⟨u, hu, rfl⟩)
    · exact ⟨u, hu.isInfix, rfl⟩
    · exact ⟨u, List.infix_concat_iff.mpr (.inr hu), rfl⟩

/-! ## Walkers -/

namespace Walker

/-- What a walker has counted when it has read the word. -/
structure Tallies (k : Walker) (w : Word) : Prop where
  /-- Of the branches begun, those not open have been ended. -/
  balance : (k.saved.length : ℤ) = rise w + k.unmatched
  saved : IsGreatest (endings w) k.saved.length
  unmatched : IsGreatest (descents w) k.unmatched
  depth : IsGreatest (climbs w) k.depth

theorem tallies_start (config : TurtleConfig) : (start config).Tallies [] where
  balance := rfl
  saved := by
    have hnone : endings [] = {0} := by simp [endings]
    rw [hnone]
    exact isGreatest_singleton
  unmatched := by
    have hnone : descents [] = {0} := by simp [descents]
    rw [hnone]
    exact isGreatest_singleton
  depth := by
    have hnone : climbs [] = {0} := by simp [climbs]
    rw [hnone]
    exact isGreatest_singleton

/-- Only the signs of branches are counted. -/
theorem read_other {c : Char} (hopening : c ≠ '[') (hclosing : c ≠ ']') (k : Walker) :
    (k.read c).saved = k.saved ∧ (k.read c).unmatched = k.unmatched
      ∧ (k.read c).depth = k.depth := by
  cases hc : Command.ofSymbol? c with
  | none =>
      rw [read_of_none hc]
      exact ⟨rfl, rfl, rfl⟩
  | some command =>
      obtain rfl := Command.ofSymbol?_eq_some.mp hc
      cases command with
      | push => exact absurd rfl hopening
      | pop => exact absurd rfl hclosing
      | _ => exact ⟨rfl, rfl, rfl⟩

/-- What a symbol does to the counts is decided by its height.  With nothing saved, a fall is
    an end without a beginning. -/
theorem read_counts {k : Walker} (h : k.saved.length ≤ k.depth) (c : Char) :
    ((k.read c).saved.length : ℤ) = max 0 (k.saved.length + rise [c])
      ∧ ((k.read c).unmatched : ℤ)
        = max (k.unmatched - (k.saved.length + rise [c])) k.unmatched
      ∧ ((k.read c).depth : ℤ) = max (max 0 (k.saved.length + rise [c])) k.depth := by
  -- a bracket moves the level by one, unless it closes what was never opened
  by_cases hopening : c = '['
  · subst hopening
    simp only [read, List.length_cons, rise_opening]
    omega
  · by_cases hclosing : c = ']'
    · subst hclosing
      cases hsaved : k.saved with
      | nil =>
          rw [read_pop_of_nil hsaved]
          simp only [hsaved, List.length_nil, rise_closing]
          omega
      | cons pose saved =>
          rw [hsaved, List.length_cons] at h
          rw [read_pop_of_cons hsaved]
          simp only [List.length_cons, rise_closing]
          omega
    · obtain ⟨hsaved, hunmatched, hdepth⟩ := k.read_other hopening hclosing
      rw [hsaved, hunmatched, hdepth, rise_other hopening hclosing]
      omega

/-- What is open now was open at some time. -/
theorem Tallies.saved_le {k : Walker} {w : Word} (h : k.Tallies w) : k.saved.length ≤ k.depth := by
  obtain ⟨u, hu, hrise⟩ := h.saved.1
  have hle : (k.saved.length : ℤ) ≤ k.depth := h.depth.2 ⟨u, hu.isInfix, hrise⟩
  omega

/-- **Step lemma**: one more symbol, and the counts are those of one more symbol. -/
theorem Tallies.read {k : Walker} {w : Word} (h : k.Tallies w) (c : Char) :
    (k.read c).Tallies (w ++ [c]) := by
  obtain ⟨hsaved, hunmatched, hdepth⟩ := read_counts h.saved_le c
  have hmoved : IsGreatest (endings (w ++ [c])) ((k.read c).saved.length : ℤ) := by
    rw [endings_concat, hsaved]
    have hmono : Monotone (· + rise [c]) := fun a b hab => Int.add_le_add_right hab _
    exact (hmono.map_isGreatest h.saved).insert 0
  refine ⟨?_, hmoved, ?_, ?_⟩
  · rw [hsaved, hunmatched, rise_append]
    have hbalance := h.balance
    omega
  · -- the balance so far turns the fall of the longer word into counts of the walker
    have hfall : -rise (w ++ [c]) = k.unmatched - (k.saved.length + rise [c]) := by
      rw [rise_append, h.balance]
      omega
    rw [descents_concat, hunmatched, hfall]
    exact h.unmatched.insert _
  · rw [climbs_concat, hdepth, ← hsaved]
    exact hmoved.union h.depth

/-- **Run lemma**: a walker that has read a word has counted what the word is like. -/
theorem tallies_walk (config : TurtleConfig) (w : Word) : (walk config w).Tallies w := by
  induction w using List.reverseRecOn with
  | nil => exact tallies_start config
  | append_singleton w c ih =>
      rw [walk, readAll_append]
      exact ih.read c

end Walker

/-! ## Walks -/

namespace Turtle

/-- The trail has one step for every step forward. -/
theorem length_trail (t : Turtle) (commands : List Command) :
    (t.trail commands).length = commands.count .forward := by
  induction commands generalizing t with
  | nil => rfl
  | cons command commands ih =>
      show (t.mark command ++ (t.execute command).trail commands).length = _
      rw [List.length_append, ih]
      cases command with
      | forward => rw [List.count_cons_self, Nat.add_comm]; rfl
      | _ => exact Nat.zero_add _

theorem length_trailOf (t : Turtle) (w : Word) : (t.trailOf w).length = w.count 'F' :=
  ((t.ready w).length_trail (Command.ofWord w)).trans (Command.count_ofWord .forward w)

/-- The steps that a walk reports are the `F`s of the word. -/
theorem forwardSteps_run (t : Turtle) (w : Word) :
    (t.run w).stats.forwardSteps = w.count 'F' := by
  rw [(t.run_records w).forwardSteps, length_trailOf]
  exact Nat.zero_add _

/-- **Closed forms of the counts**: a walk takes a step for every `F` and draws an edge for
    every step.  The ends of branches that were never begun are as many as the beginnings of
    the word end more branches than they begin, at most; the greatest depth is the most by
    which a part of the word begins more branches than it ends; and what has been begun and
    not ended is open. -/
theorem run_tallies (t : Turtle) (w : Word) :
    (t.run w).stats.forwardSteps = w.count 'F'
      ∧ (t.run w).graph.edgeCount = w.count 'F'
      ∧ (t.run w).edgeList.length = w.count 'F'
      ∧ IsGreatest ((fun u : Word => (u.count ']' - u.count '[' : ℤ)) '' {u | u <+: w})
          (t.run w).stats.unmatchedPops
      ∧ IsGreatest ((fun u : Word => (u.count '[' - u.count ']' : ℤ)) '' {u | u <:+: w})
          (t.run w).stats.maxDepth
      ∧ ((t.run w).branches.size : ℤ)
          = w.count '[' - w.count ']' + (t.run w).stats.unmatchedPops := by
  have hfollows : (t.run w).Follows _ (Walker.walk t.config w) := ((t.reset_follows _).readAll w).1
  have htallies := Walker.tallies_walk t.config w
  have hrep := t.run_represents w
  have hopen : (t.run w).branches.size = (Walker.walk t.config w).saved.length := by
    rw [← hfollows.branches, List.length_reverse, Array.length_toList]
  have hdescents : (fun u : Word => (u.count ']' - u.count '[' : ℤ)) '' {u | u <+: w}
      = descents w := by
    simp only [descents, rise, neg_sub]
  refine ⟨t.forwardSteps_run w, ?_, ?_, ?_, ?_, ?_⟩
  · rw [hrep.edgeCount, length_trailOf]
  · exact hrep.answers.edgeList_length.trans (t.length_trailOf w)
  · rw [hdescents, hfollows.unmatchedPops]
    exact htallies.unmatched
  · rw [hfollows.maxDepth]
    exact htallies.depth
  · rw [hopen, hfollows.unmatchedPops]
    exact htallies.balance

end Turtle

end TurtleGrammar
