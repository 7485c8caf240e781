import Mathlib.Data.List.MinMax
import TurtleGrammar.Proofs.Branches
import TurtleGrammar.Proofs.Caps

/-! # Nesting — how deep the branches of a grown word go

    Rules that leave the signs of branches alone and replace symbols by
    balanced words keep a word balanced: a pass puts balanced words in the
    place of symbols and moves no sign past another.

    How deep branches go is counted in the way in which `closesAll` counts what
    is open.  A pass puts replacements below what was open already, so it adds
    at most the depth of the deepest of them (`deepest_apply_le`).  A walk
    counts in the same way, whatever the word: the depth that it reports is the
    depth of what it reads (`maxDepth_executeAll`). -/

namespace TurtleGrammar

/-- Two balanced lists in a row are balanced. -/
theorem Balanced.append {α : Type} {opening closing : α} {u v : List α}
    (hu : Balanced opening closing u) (hv : Balanced opening closing v) :
    Balanced opening closing (u ++ v) := by
  induction hu with
  | nil => exact hv
  | other hopening hclosing _ ih => exact .other hopening hclosing ih
  | branch hinner _ _ ih =>
      rw [List.cons_append, List.append_assoc, List.cons_append]
      exact .branch hinner ih

/-! ## Depth -/

section Depth

variable {α : Type} [DecidableEq α] {opening closing : α}

/-- The most branches that are open at once while a list is read that begins inside `depth`
    branches.  A closing sign with nothing to close changes nothing. -/
def deepest (opening closing : α) : Nat → List α → Nat
  | depth, [] => depth
  | depth, c :: w =>
      if c = opening then deepest opening closing (depth + 1) w
      else if c = closing then max depth (deepest opening closing (depth - 1) w)
      else deepest opening closing depth w

theorem deepest_opening (depth : Nat) (w : List α) :
    deepest opening closing depth (opening :: w) = deepest opening closing (depth + 1) w := by
  rw [deepest, if_pos rfl]

theorem deepest_closing (hne : opening ≠ closing) (depth : Nat) (w : List α) :
    deepest opening closing depth (closing :: w)
      = max depth (deepest opening closing (depth - 1) w) := by
  rw [deepest, if_neg hne.symm, if_pos rfl]

theorem deepest_other {c : α} (hopening : c ≠ opening) (hclosing : c ≠ closing) (depth : Nat)
    (w : List α) :
    deepest opening closing depth (c :: w) = deepest opening closing depth w := by
  rw [deepest, if_neg hopening, if_neg hclosing]

/-- What is open at the start counts. -/
theorem le_deepest (depth : Nat) (w : List α) : depth ≤ deepest opening closing depth w := by
  induction w generalizing depth with
  | nil => exact Nat.le_refl depth
  | cons c w ih =>
      rw [deepest]
      split
      · exact Nat.le_of_succ_le (ih (depth + 1))
      · split
        · exact Nat.le_max_left _ _
        · exact ih depth

/-- A balanced part goes as deep inside other branches as it does alone, below them, and
    what follows it begins where it began. -/
theorem Balanced.deepest_append (hne : opening ≠ closing) {u : List α}
    (h : Balanced opening closing u) (depth : Nat) (v : List α) :
    deepest opening closing depth (u ++ v)
      = max (depth + deepest opening closing 0 u) (deepest opening closing depth v) := by
  induction h generalizing depth v with
  | nil =>
      have hstart : depth ≤ deepest opening closing depth v := le_deepest depth v
      exact (Nat.max_eq_right hstart).symm
  | other hopening hclosing _ ih =>
      rw [List.cons_append, deepest_other hopening hclosing, deepest_other hopening hclosing, ih]
  | @branch inner rest _ _ ihinner ihrest =>
      rw [List.cons_append, List.append_assoc, List.cons_append, deepest_opening, deepest_opening,
        ihinner, ihinner, deepest_closing hne, deepest_closing hne, ihrest]
      simp only [Nat.add_sub_cancel]
      omega

/-- What is read first takes no notice of what follows it. -/
theorem deepest_append_congr {v v' : List α}
    (h : ∀ depth, deepest opening closing depth v = deepest opening closing depth v') (depth : Nat)
    (u : List α) :
    deepest opening closing depth (u ++ v) = deepest opening closing depth (u ++ v') := by
  induction u generalizing depth with
  | nil => exact h depth
  | cons c u ih =>
      rw [List.cons_append, List.cons_append, deepest, deepest, ih, ih, ih]

end Depth

/-- How deep the branches of a word go. -/
def nesting (w : Word) : Nat := deepest '[' ']' 0 w

/-! ## Passes -/

namespace RuleSet

/-- How deep the branches of the deepest replacement go. -/
def nesting (r : RuleSet) : Nat :=
  (r.toList.map fun rule => TurtleGrammar.nesting rule.2).foldr max 0

/-- The rules leave the signs of branches alone, and what they put in the place of other
    symbols is balanced. -/
structure KeepsBranches (r : RuleSet) : Prop where
  opening : r.get? '[' = none
  closing : r.get? ']' = none
  replacements : ∀ c w, r.get? c = some w → Balanced '[' ']' w

/-- No replacement is nested deeper than the rule set. -/
theorem nesting_le_of_get? {r : RuleSet} {c : Char} {w : Word} (h : r.get? c = some w) :
    TurtleGrammar.nesting w ≤ r.nesting := by
  have hmem : (c, w) ∈ r.toList := Std.ExtTreeMap.mem_toList_iff_getElem?_eq_some.mpr h
  exact List.le_max_of_le' 0 (List.mem_map_of_mem hmem) (Nat.le_refl _)

namespace KeepsBranches

variable {r : RuleSet} (h : r.KeepsBranches)
include h

theorem apply_opening (w : Word) : r.apply ('[' :: w) = '[' :: r.apply w := by
  rw [apply_cons, image_of_none h.opening]
  rfl

theorem apply_closing (w : Word) : r.apply (']' :: w) = ']' :: r.apply w := by
  rw [apply_cons, image_of_none h.closing]
  rfl

/-- What becomes of any other symbol is balanced. -/
theorem image_balanced {c : Char} (hopening : c ≠ '[') (hclosing : c ≠ ']') :
    Balanced '[' ']' (r.image c) := by
  cases hc : r.get? c with
  | none =>
      rw [image_of_none hc]
      exact .other hopening hclosing .nil
  | some w =>
      rw [image_of_some hc]
      exact h.replacements c w hc

/-- A pass over a balanced word gives a balanced word. -/
theorem apply_balanced {w : Word} (hw : Balanced '[' ']' w) : Balanced '[' ']' (r.apply w) := by
  induction hw with
  | nil => exact .nil
  | other hopening hclosing _ ih => exact (h.image_balanced hopening hclosing).append ih
  | branch _ _ ihinner ihrest =>
      rw [h.apply_opening, apply_append, h.apply_closing]
      exact .branch ihinner ihrest

omit h in
/-- What becomes of any other symbol is nested no deeper than the rule set. -/
theorem nesting_image_le {c : Char} (hopening : c ≠ '[') (hclosing : c ≠ ']') :
    TurtleGrammar.nesting (r.image c) ≤ r.nesting := by
  cases hc : r.get? c with
  | none =>
      rw [image_of_none hc, TurtleGrammar.nesting, deepest_other hopening hclosing]
      exact Nat.zero_le _
  | some w =>
      rw [image_of_some hc]
      exact nesting_le_of_get? hc

/-- A pass adds no more depth than its deepest replacement has. -/
theorem deepest_apply_le (depth : Nat) (w : Word) :
    deepest '[' ']' depth (r.apply w) ≤ deepest '[' ']' depth w + r.nesting := by
  have hne : '[' ≠ ']' := by decide
  induction w generalizing depth with
  | nil => exact Nat.le_add_right _ _
  | cons c w ih =>
      by_cases hopening : c = '['
      · rw [hopening, h.apply_opening, deepest_opening, deepest_opening]
        exact ih (depth + 1)
      · by_cases hclosing : c = ']'
        · rw [hclosing, h.apply_closing, deepest_closing hne, deepest_closing hne]
          have hrest := ih (depth - 1)
          omega
        · -- the image of the symbol is balanced and stands where the symbol stood
          rw [apply_cons, (h.image_balanced hopening hclosing).deepest_append hne,
            deepest_other hopening hclosing]
          have himage := nesting_image_le (r := r) hopening hclosing
          have hstart : depth ≤ deepest '[' ']' depth w := le_deepest depth w
          have hrest := ih depth
          rw [TurtleGrammar.nesting] at himage
          omega

end KeepsBranches

end RuleSet

/-! ## Generations -/

namespace LSystem

variable {r : RuleSet} (h : r.KeepsBranches) (seed : Word)
include h

/-- All generations of a balanced seed are balanced. -/
theorem ahead_new_balanced {seed : Word} (hseed : Balanced '[' ']' seed) (n : Nat) :
    Balanced '[' ']' ((new seed r).ahead n) := by
  induction n with
  | zero => exact hseed
  | succ n ih => exact h.apply_balanced ih

/-- `n` passes add at most `n` times the depth of the deepest replacement. -/
theorem nesting_ahead_new_le (n : Nat) :
    nesting ((new seed r).ahead n) ≤ nesting seed + n * r.nesting := by
  induction n with
  | zero => exact Nat.le_add_right _ _
  | succ n ih =>
      have hpass : nesting ((new seed r).ahead (n + 1))
          ≤ nesting ((new seed r).ahead n) + r.nesting := h.deepest_apply_le 0 _
      rw [Nat.succ_mul]
      omega

end LSystem

/-! ## Walks -/

/-- Symbols that are no commands do not count. -/
theorem deepest_ofWord (depth : Nat) (w : Word) :
    deepest Command.push Command.pop depth (Command.ofWord w) = deepest '[' ']' depth w := by
  induction w generalizing depth with
  | nil => rfl
  | cons c w ih =>
      cases hc : Command.ofSymbol? c with
      | none =>
          -- no bracket, since both brackets are commands
          have hopening : c ≠ '[' := by
            rintro rfl
            exact nomatch hc
          have hclosing : c ≠ ']' := by
            rintro rfl
            exact nomatch hc
          rw [Command.ofWord, List.filterMap_cons_none hc, deepest_other hopening hclosing]
          exact ih depth
      | some command =>
          rw [Command.ofWord, List.filterMap_cons_some hc, Command.ofSymbol?_eq_some.mp hc]
          -- only the brackets move the depth, on both sides alike
          cases command with
          | push => exact ih (depth + 1)
          | pop => exact congrArg (max depth) (ih (depth - 1))
          | _ => exact ih depth

namespace Turtle

/-- **Run lemma**: a walk reports how deep its commands go, from as many open branches as the
    turtle has. -/
theorem maxDepth_executeAll {t : Turtle} (h : t.branches.size ≤ t.stats.maxDepth)
    (commands : List Command) :
    (t.executeAll commands).stats.maxDepth
      = max t.stats.maxDepth (deepest .push .pop t.branches.size commands) := by
  -- `h` is carried along: no more branches are open than the depth reported so far
  induction commands generalizing t with
  | nil => exact (Nat.max_eq_left h).symm
  | cons command commands ih =>
      show ((t.execute command).executeAll commands).stats.maxDepth = _
      cases command with
      | push =>
          have hsize : t.push.branches.size = t.branches.size + 1 := Array.size_push _
          have hdepth : t.push.stats.maxDepth = max t.stats.maxDepth (t.branches.size + 1) := rfl
          have hstart : t.branches.size + 1
              ≤ deepest Command.push .pop (t.branches.size + 1) commands := le_deepest _ commands
          show (t.push.executeAll commands).stats.maxDepth = _
          rw [ih (by omega), deepest_opening, hsize, hdepth]
          omega
      | pop =>
          show (t.pop.executeAll commands).stats.maxDepth = _
          rw [deepest_closing (by decide)]
          -- without an open branch the depth stays zero, as `deepest` truncates
          rcases t.pop_cases with ⟨branches, pose, hopen, hpop⟩ | ⟨hnone, hpop⟩
          · have hsize : t.branches.size = branches.size + 1 := by rw [hopen, Array.size_push]
            have hpopped : t.pop.branches = branches := by rw [hpop]
            have hdepth : t.pop.stats = t.stats := by rw [hpop]
            rw [ih (by rw [hpopped, hdepth]; omega), hpopped, hdepth, hsize, Nat.add_sub_cancel]
            omega
          · have hsize : t.branches.size = 0 := by rw [hnone]; rfl
            have hpopped : t.pop.branches = t.branches := by rw [hpop]
            have hdepth : t.pop.stats.maxDepth = t.stats.maxDepth := by rw [hpop]
            rw [ih (by rw [hpopped, hdepth]; exact h), hpopped, hdepth, hsize, Nat.zero_sub]
            omega
      | _ => exact ih h

/-- The depth that a walk reports is the nesting of the word. -/
theorem maxDepth_run (t : Turtle) (w : Word) : (t.run w).stats.maxDepth = nesting w := by
  have hready : (t.ready w).branches.size ≤ (t.ready w).stats.maxDepth := Nat.le_refl 0
  rw [run_eq_executeAll, maxDepth_executeAll hready, deepest_ofWord]
  exact Nat.zero_max _

/-- **Balance survives growth and the walk**: rules that keep branches grow a balanced seed
    into balanced words.  A walk over any of them ends every branch that it begins and no
    other, and goes as deep as the word does, which is at most the depth of the seed and
    that of the deepest replacement once a pass. -/
theorem run_grown_balanced {r : RuleSet} {seed : Word} (h : r.KeepsBranches)
    (hseed : Balanced '[' ']' seed) (n : Nat) (t : Turtle) :
    let w := ((LSystem.new seed r).advanceBy n).current
    Balanced '[' ']' w
      ∧ (t.run w).stats.unmatchedPops = 0
      ∧ (t.run w).branches = #[]
      ∧ (t.run w).stats.maxDepth = nesting w
      ∧ (t.run w).stats.maxDepth ≤ nesting seed + n * r.nesting := by
  intro w
  have hahead : w = (LSystem.new seed r).ahead n := LSystem.current_advanceBy n _
  have hbalanced : Balanced '[' ']' w := by
    rw [hahead]
    exact LSystem.ahead_new_balanced h hseed n
  obtain ⟨hbranches, hunmatched⟩ := executeAll_keeps hbalanced.ofWord (t.ready w)
  refine ⟨hbalanced, hunmatched, hbranches, t.maxDepth_run w, ?_⟩
  rw [maxDepth_run, hahead]
  exact LSystem.nesting_ahead_new_le h seed n

/-- The tree whose arms shrink: its branch lies in a branch of the generation before. -/
theorem run_grown_balanced_shrinkingH :
    let grown := (LSystem.new Preset.shrinkingH.seed Preset.shrinkingH.ruleSet).advanceBy 5
    Preset.shrinkingH.ruleSet.KeepsBranches
      ∧ Balanced '[' ']' Preset.shrinkingH.seed
      ∧ Balanced '[' ']' grown.current
      ∧ ((new {}).run grown.current).stats.maxDepth ≤ 5 := by
  have hrules : (Preset.shrinkingH.rules.map Prod.fst).Nodup := by decide
  have hfound : ∀ c w, Preset.shrinkingH.ruleSet.get? c = some w →
      (c, w) ∈ Preset.shrinkingH.rules := by
    intro c w hget
    exact (RuleSet.get?_ofList hrules).mp hget
  have hkeeps : Preset.shrinkingH.ruleSet.KeepsBranches :=
    { opening := by decide +kernel
      closing := by decide +kernel
      replacements := by
        intro c w hget
        -- the preset has a single rule
        obtain ⟨-, rfl⟩ := Prod.mk.inj (List.mem_singleton.mp (hfound c w hget))
        decide }
  have hseed : Balanced '[' ']' Preset.shrinkingH.seed := by decide
  have hbound : nesting Preset.shrinkingH.seed + 5 * Preset.shrinkingH.ruleSet.nesting = 5 := by
    decide +kernel
  obtain ⟨hbalanced, -, -, -, hdepth⟩ := run_grown_balanced hkeeps hseed 5 (new {})
  rw [hbound] at hdepth
  exact ⟨hkeeps, hseed, hbalanced, hdepth⟩

end Turtle

end TurtleGrammar
