import Mathlib.Tactic.Ring
import TurtleGrammar.Preset
import TurtleGrammar.Proofs.Decomposition
import TurtleGrammar.Proofs.Nesting
import TurtleGrammar.Proofs.Tallies

/-! # The catalog — how its curves grow

    The rules of a curve in the catalog are all alike.  Call the symbols that
    have a rule the buds of a word: in every replacement there are equally many
    buds and equally many steps (`RuleSet.Regular`).  Then the buds multiply by
    the same factor in every generation, and the steps follow them.

    - Where the step is a bud itself, steps multiply like buds
      (`Regular.count_grown_of_bud`).
    - Where it has no rule, every generation keeps its steps and adds as many as
      its buds put out, which makes a geometric sum
      (`Regular.count_grown_of_kept`).

    Branches are begun and ended in pairs, and only the tree has any.  Its
    branch holds the tree of the generation before, so it is as deep as it is
    old (`nesting_grown_shrinkingH`). -/

namespace TurtleGrammar

/-! ## Rules that are alike -/

namespace RuleSet

/-- How many symbols of a word have a rule. -/
def buds (r : RuleSet) (w : Word) : ℕ := w.countP r.contains

/-- Every replacement has so many buds and takes so many steps. -/
structure Regular (r : RuleSet) (buds steps : ℕ) : Prop where
  buds : ∀ c w, r.get? c = some w → r.buds w = buds
  steps : ∀ c w, r.get? c = some w → w.count 'F' = steps

theorem contains_of_some {r : RuleSet} {c : Char} {w : Word} (h : r.get? c = some w) :
    r.contains c = true := by
  rw [contains, Std.ExtTreeMap.contains_eq_isSome_getElem?]
  exact Option.isSome_of_eq_some h

theorem contains_eq_false_iff {r : RuleSet} {c : Char} :
    r.contains c = false ↔ r.get? c = none := by
  rw [contains, Std.ExtTreeMap.contains_eq_isSome_getElem?, Option.isSome_eq_false_iff,
    Option.isNone_iff_eq_none]
  rfl

namespace Regular

variable {r : RuleSet} {k m : ℕ} (h : r.Regular k m)
include h

/-- **Step lemma**: a pass multiplies the buds. -/
theorem buds_apply (w : Word) : r.buds (r.apply w) = k * r.buds w := by
  induction w with
  | nil => rfl
  | cons c w ih =>
      have hword : r.buds (r.apply (c :: w)) = r.buds (r.image c) + r.buds (r.apply w) :=
        List.countP_append
      cases hc : r.get? c with
      | none =>
          have hkept : r.contains c = false := contains_eq_false_iff.mpr hc
          rw [hword, ih, image_of_none hc]
          simp [RuleSet.buds, hkept]
      | some v =>
          have hbud : r.contains c = true := contains_of_some hc
          have hmore : r.buds (c :: w) = r.buds w + 1 := List.countP_cons_of_pos hbud
          rw [hword, ih, image_of_some hc, h.buds c v hc, hmore, Nat.mul_succ, Nat.add_comm]

/-- **Step lemma**: every bud puts out steps, and a step that is no bud is kept. -/
theorem count_apply_forward (w : Word) :
    (r.apply w).count 'F' = m * r.buds w + if r.contains 'F' then 0 else w.count 'F' := by
  induction w with
  | nil => simp [RuleSet.buds]
  | cons c w ih =>
      rw [apply_cons, List.count_append, ih]
      cases hc : r.get? c with
      | none =>
          have hkept : r.contains c = false := contains_eq_false_iff.mpr hc
          have hsame : r.buds (c :: w) = r.buds w := List.countP_cons_of_neg (by simp [hkept])
          rw [image_of_none hc, hsame]
          -- an `F` without a rule is kept, and counted once
          by_cases hforward : c = 'F'
          · rw [hforward] at hkept
            rw [hforward, hkept, List.count_cons_self, List.count_cons_self]
            simp only [List.count_nil, Bool.false_eq_true, if_false]
            omega
          · rw [List.count_cons_of_ne hforward, List.count_cons_of_ne hforward, List.count_nil,
              Nat.zero_add]
      | some v =>
          have hbud : r.contains c = true := contains_of_some hc
          have hmore : r.buds (c :: w) = r.buds w + 1 := List.countP_cons_of_pos hbud
          rw [image_of_some hc, h.steps c v hc, hmore, Nat.mul_succ]
          by_cases hforward : c = 'F'
          · rw [hforward] at hbud
            simp only [hbud, if_true]
            omega
          · rw [List.count_cons_of_ne hforward]
            omega

/-- **Run lemma**: the buds of a generation. -/
theorem buds_grown (n : ℕ) (w : Word) : r.buds (LSystem.grown r n w) = k ^ n * r.buds w := by
  induction n with
  | zero => exact (Nat.one_mul _).symm
  | succ n ih => rw [LSystem.grown_succ, h.buds_apply, ih, pow_succ', mul_assoc]

omit h in
/-- **Run lemma**: the steps of a generation, where all buds are steps. -/
theorem count_grown_of_bud (h : r.Regular k k) (hbud : r.contains 'F' = true) {w : Word}
    (hw : r.buds w = w.count 'F') (n : ℕ) :
    (LSystem.grown r n w).count 'F' = w.count 'F' * k ^ n := by
  cases n with
  | zero => exact (Nat.mul_one _).symm
  | succ n =>
      rw [LSystem.grown_succ, h.count_apply_forward, h.buds_grown, hbud, hw, if_pos rfl]
      ring

/-- **Run lemma**: the steps of a generation, where steps are kept. -/
theorem count_grown_of_kept {j : ℕ} (hk : k = j + 1) (hkept : r.contains 'F' = false) (w : Word)
    (n : ℕ) :
    j * (LSystem.grown r n w).count 'F' + m * r.buds w
      = j * w.count 'F' + m * r.buds w * k ^ n := by
  induction n with
  | zero =>
      rw [pow_zero, Nat.mul_one]
      rfl
  | succ n ih =>
      rw [LSystem.grown_succ, h.count_apply_forward, h.buds_grown, hkept, if_neg Bool.false_ne_true]
      calc j * (m * (k ^ n * r.buds w) + (LSystem.grown r n w).count 'F') + m * r.buds w
          = j * (LSystem.grown r n w).count 'F' + m * r.buds w + j * (m * r.buds w * k ^ n) := by
            ring
        _ = j * w.count 'F' + m * r.buds w * k ^ (n + 1) := by rw [ih, hk]; ring

end Regular

end RuleSet

/-! ## Words without buds -/

/-- A pass changes nothing in them. -/
theorem RuleSet.apply_of_budless {r : RuleSet} {w : Word} (h : r.buds w = 0) : r.apply w = w := by
  induction w with
  | nil => rfl
  | cons c w ih =>
      obtain ⟨hrest, hc⟩ : r.buds w = 0 ∧ r.contains c = false := by
        simpa [buds, List.countP_cons] using h
      rw [apply_cons, image_of_none (contains_eq_false_iff.mp hc), ih hrest]
      rfl

/-- A word in which no symbol has a rule never changes. -/
theorem LSystem.grown_of_budless {r : RuleSet} {w : Word} (h : r.buds w = 0) (n : ℕ) :
    grown r n w = w := by
  induction n with
  | zero => rfl
  | succ n ih => rw [grown_succ, ih, RuleSet.apply_of_budless h]

/-! ## The rules of the catalog -/

namespace Preset

/-- The rules of a curve, each found under its symbol. -/
theorem mem_rules_of_get? {p : Preset} (hdistinct : (p.rules.map Prod.fst).Nodup) {c : Char}
    {w : Word} (h : p.ruleSet.get? c = some w) : (c, w) ∈ p.rules :=
  (RuleSet.get?_ofList hdistinct).mp h

/-- The symbols with a rule are those that the curve lists rules for. -/
theorem contains_ruleSet (p : Preset) (c : Char) :
    p.ruleSet.contains c = (p.rules.map Prod.fst).contains c :=
  Std.ExtTreeMap.contains_ofList

theorem buds_ruleSet (p : Preset) (w : Word) :
    p.ruleSet.buds w = w.countP (p.rules.map Prod.fst).contains :=
  List.countP_congr fun c _ => by rw [p.contains_ruleSet]

/-- Rules that all have `k` buds and `m` steps on their right make a regular rule set. -/
theorem regular_of_rules {p : Preset} {k m : ℕ} (hdistinct : (p.rules.map Prod.fst).Nodup)
    (hrules : ∀ rule ∈ p.rules,
      rule.2.countP (p.rules.map Prod.fst).contains = k ∧ rule.2.count 'F' = m) :
    p.ruleSet.Regular k m where
  buds := by
    intro c w hget
    rw [buds_ruleSet]
    exact (hrules (c, w) (mem_rules_of_get? hdistinct hget)).1
  steps := by
    intro c w hget
    exact (hrules (c, w) (mem_rules_of_get? hdistinct hget)).2

/-- No curve has rules for the signs of branches, and all replacements are balanced. -/
theorem keepsBranches_of_mem {p : Preset} (hp : p ∈ catalog) : p.ruleSet.KeepsBranches := by
  have hrules : ∀ p ∈ catalog, (p.rules.map Prod.fst).Nodup
      ∧ ∀ rule ∈ p.rules, rule.1 ≠ '[' ∧ rule.1 ≠ ']' ∧ Balanced '[' ']' rule.2 := by
    decide
  obtain ⟨hdistinct, hkeep⟩ := hrules p hp
  have hnone : ∀ c, (∀ rule ∈ p.rules, rule.1 ≠ c) → p.ruleSet.get? c = none := by
    intro c hc
    refine Option.eq_none_iff_forall_ne_some.mpr ?_
    intro w hget
    exact hc (c, w) (mem_rules_of_get? hdistinct hget) rfl
  exact
    { opening := hnone '[' fun rule hrule => (hkeep rule hrule).1
      closing := hnone ']' fun rule hrule => (hkeep rule hrule).2.1
      replacements := by
        intro c w hget
        exact (hkeep (c, w) (mem_rules_of_get? hdistinct hget)).2.2 }

/-- The seeds of the catalog are balanced. -/
theorem balanced_seed {p : Preset} (hp : p ∈ catalog) : Balanced '[' ']' p.seed := by
  have hseeds : ∀ p ∈ catalog, Balanced '[' ']' p.seed := by decide
  exact hseeds p hp

/-! ## The walks -/

/-- What a curve has grown into after `n` generations. -/
def grown (p : Preset) (n : ℕ) : Word := (p.lsystem.advanceBy n).current

theorem grown_eq (p : Preset) (n : ℕ) : p.grown n = LSystem.grown p.ruleSet n p.seed := by
  rw [grown, lsystem, LSystem.current_advanceBy, LSystem.grown_eq_ahead]

theorem balanced_grown {p : Preset} (hp : p ∈ catalog) (n : ℕ) :
    Balanced '[' ']' (p.grown n) := by
  rw [grown_eq, LSystem.grown_eq_ahead]
  exact LSystem.ahead_new_balanced (keepsBranches_of_mem hp) (balanced_seed hp) n

/-- A walk along a curve leaves no end of a branch unmatched. -/
theorem stats_run_grown {p : Preset} (hp : p ∈ catalog) (n : ℕ) (t : Turtle) :
    (t.run (p.grown n)).stats = ⟨(p.grown n).count 'F', nesting (p.grown n), 0⟩ := by
  have hbalanced : Balanced '[' ']' (p.grown n) := balanced_grown hp n
  have hunmatched : (t.run (p.grown n)).stats.unmatchedPops = 0 :=
    (Turtle.executeAll_keeps hbalanced.ofWord (t.ready (p.grown n))).2
  rw [← t.forwardSteps_run, ← t.maxDepth_run, ← hunmatched]

/-- Without branches in the seed and in the rules there are none at all. -/
theorem nesting_grown_of_flat {p : Preset} (hp : p ∈ catalog) (hseed : nesting p.seed = 0)
    (hrules : p.ruleSet.nesting = 0) (n : ℕ) : nesting (p.grown n) = 0 := by
  have hle := LSystem.nesting_ahead_new_le (keepsBranches_of_mem hp) p.seed n
  rw [hseed, hrules, ← LSystem.grown_eq_ahead, ← grown_eq] at hle
  exact Nat.le_zero.mp hle

/-- The tree holds itself twice, once in a branch. -/
theorem grown_succ_shrinkingH (n : ℕ) :
    shrinkingH.grown (n + 1)
      = "[F>+".toList ++ (shrinkingH.grown n ++ ("<]-F>+".toList
        ++ (shrinkingH.grown n ++ "<".toList))) := by
  have hfirst : LSystem.grown shrinkingH.ruleSet 1 shrinkingH.seed
      = "[F>+".toList ++ (shrinkingH.seed ++ ("<]-F>+".toList
        ++ (shrinkingH.seed ++ "<".toList))) := by
    decide +kernel
  have hopening : shrinkingH.ruleSet.buds "[F>+".toList = 0 := buds_ruleSet _ _
  have hmiddle : shrinkingH.ruleSet.buds "<]-F>+".toList = 0 := buds_ruleSet _ _
  have hclosing : shrinkingH.ruleSet.buds "<".toList = 0 := buds_ruleSet _ _
  rw [grown_eq, grown_eq, Nat.add_comm, LSystem.grown_add, hfirst]
  simp only [LSystem.grown_append]
  rw [LSystem.grown_of_budless hopening, LSystem.grown_of_budless hmiddle,
    LSystem.grown_of_budless hclosing]

/-- So its branch is as deep as the tree of the generation before, and one deeper. -/
theorem nesting_grown_shrinkingH (n : ℕ) : nesting (shrinkingH.grown n) = n := by
  have hne : '[' ≠ ']' := by decide
  induction n with
  | zero => rfl
  | succ n ih =>
      have htree : Balanced '[' ']' (shrinkingH.grown n) := balanced_grown (by simp [catalog]) n
      rw [nesting] at ih
      rw [grown_succ_shrinkingH]
      show deepest '[' ']' 1 (shrinkingH.grown n ++ _) = n + 1
      rw [htree.deepest_append hne, ih]
      show max (1 + n) (max 1 (deepest '[' ']' 0 (shrinkingH.grown n ++ _))) = n + 1
      rw [htree.deepest_append hne, ih]
      show max (1 + n) (max 1 (max (0 + n) 0)) = n + 1
      omega

/-! ## The steps -/

section Steps

variable {p : Preset} {j k m b f : ℕ}

/-- A curve whose steps are buds. -/
theorem count_grown_of_bud (hrules : p.ruleSet.Regular k k)
    (hbud : (p.rules.map Prod.fst).contains 'F' = true)
    (hbuds : p.seed.countP (p.rules.map Prod.fst).contains = f) (hsteps : p.seed.count 'F' = f)
    (n : ℕ) : (p.grown n).count 'F' = f * k ^ n := by
  rw [← p.contains_ruleSet] at hbud
  rw [← p.buds_ruleSet, ← hsteps] at hbuds
  rw [grown_eq, hrules.count_grown_of_bud hbud hbuds, hsteps]

/-- A curve whose steps are kept. -/
theorem count_grown_of_kept (hrules : p.ruleSet.Regular k m) (hk : k = j + 1)
    (hkept : (p.rules.map Prod.fst).contains 'F' = false)
    (hbuds : p.seed.countP (p.rules.map Prod.fst).contains = b) (hsteps : p.seed.count 'F' = f)
    (n : ℕ) : j * (p.grown n).count 'F' + m * b = j * f + m * b * k ^ n := by
  rw [← p.contains_ruleSet] at hkept
  rw [← p.buds_ruleSet] at hbuds
  rw [grown_eq, ← hbuds, ← hsteps]
  exact hrules.count_grown_of_kept hk hkept p.seed n

end Steps

/-- Each of the three sides is replaced by four. -/
theorem count_grown_koch (n : ℕ) : (koch.grown n).count 'F' = 3 * 4 ^ n := by
  have hrules : koch.ruleSet.Regular 4 4 := regular_of_rules (by decide) (by decide)
  exact count_grown_of_bud hrules rfl rfl rfl n

/-- Each of the four sides is replaced by eight. -/
theorem count_grown_kochIsland (n : ℕ) : (kochIsland.grown n).count 'F' = 4 * 8 ^ n := by
  have hrules : kochIsland.ruleSet.Regular 8 8 := regular_of_rules (by decide) (by decide)
  exact count_grown_of_bud hrules rfl rfl rfl n

/-- Each step is replaced by three. -/
theorem count_grown_terdragon (n : ℕ) : (terdragon.grown n).count 'F' = 3 ^ n := by
  have hrules : terdragon.ruleSet.Regular 3 3 := regular_of_rules (by decide) (by decide)
  rw [count_grown_of_bud hrules rfl rfl rfl n]
  exact Nat.one_mul _

/-- Each step is replaced by two. -/
theorem count_grown_levy (n : ℕ) : (levy.grown n).count 'F' = 2 ^ n := by
  have hrules : levy.ruleSet.Regular 2 2 := regular_of_rules (by decide) (by decide)
  rw [count_grown_of_bud hrules rfl rfl rfl n]
  exact Nat.one_mul _

/-- Every bud makes two buds and leaves one step. -/
theorem count_grown_dragon (n : ℕ) : (dragon.grown n).count 'F' = 2 ^ n := by
  have hrules : dragon.ruleSet.Regular 2 1 := regular_of_rules (by decide) (by decide)
  have hbuds : dragon.seed.countP (dragon.rules.map Prod.fst).contains = 1 := rfl
  have hsteps : dragon.seed.count 'F' = 1 := rfl
  have hsum := count_grown_of_kept hrules rfl rfl hbuds hsteps n
  omega

/-- Every bud makes four buds and leaves three steps. -/
theorem count_grown_hilbert (n : ℕ) : (hilbert.grown n).count 'F' = 4 ^ n - 1 := by
  have hrules : hilbert.ruleSet.Regular 4 3 := regular_of_rules (by decide) (by decide)
  have hbuds : hilbert.seed.countP (hilbert.rules.map Prod.fst).contains = 1 := rfl
  have hsteps : hilbert.seed.count 'F' = 0 := rfl
  have hsum := count_grown_of_kept hrules rfl rfl hbuds hsteps n
  omega

/-- Three times the steps, so that nothing is divided. -/
theorem count_grown_sierpinski (n : ℕ) :
    3 * (sierpinski.grown n).count 'F' + 4 = 16 * 4 ^ n := by
  have hrules : sierpinski.ruleSet.Regular 4 8 := regular_of_rules (by decide) (by decide)
  have hbuds : sierpinski.seed.countP (sierpinski.rules.map Prod.fst).contains = 2 := rfl
  have hsteps : sierpinski.seed.count 'F' = 4 := rfl
  have hsum := count_grown_of_kept hrules rfl rfl hbuds hsteps n
  omega

/-- Every bud makes two buds and leaves two steps. -/
theorem count_grown_shrinkingH (n : ℕ) : (shrinkingH.grown n).count 'F' = 2 * (2 ^ n - 1) := by
  have hrules : shrinkingH.ruleSet.Regular 2 2 := regular_of_rules (by decide) (by decide)
  have hbuds : shrinkingH.seed.countP (shrinkingH.rules.map Prod.fst).contains = 1 := rfl
  have hsteps : shrinkingH.seed.count 'F' = 0 := rfl
  have hsum := count_grown_of_kept hrules rfl rfl hbuds hsteps n
  omega

/-- **The curves of the catalog**: the steps that a walk along a generation takes, how deep its
    branches go, and that it leaves none of their ends unmatched. -/
theorem stats_catalog (n : ℕ) (t : Turtle) :
    let stats := fun p : Preset => (t.run (p.lsystem.advanceBy n).current).stats
    stats koch = ⟨3 * 4 ^ n, 0, 0⟩
      ∧ stats kochIsland = ⟨4 * 8 ^ n, 0, 0⟩
      ∧ stats dragon = ⟨2 ^ n, 0, 0⟩
      ∧ stats terdragon = ⟨3 ^ n, 0, 0⟩
      ∧ stats levy = ⟨2 ^ n, 0, 0⟩
      ∧ stats hilbert = ⟨4 ^ n - 1, 0, 0⟩
      ∧ (stats sierpinski = ⟨(16 * 4 ^ n - 4) / 3, 0, 0⟩ ∧ 3 ∣ 16 * 4 ^ n - 4)
      ∧ stats shrinkingH = ⟨2 * (2 ^ n - 1), n, 0⟩ := by
  intro stats
  have hstats : ∀ p ∈ catalog, ∀ steps depth, (p.grown n).count 'F' = steps →
      nesting (p.grown n) = depth → stats p = ⟨steps, depth, 0⟩ := by
    rintro p hp steps depth rfl rfl
    exact stats_run_grown hp n t
  -- all curves but one are drawn without branches
  have hflat : ∀ p ∈ catalog, nesting p.seed = 0 → p.ruleSet.nesting = 0 → ∀ steps,
      (p.grown n).count 'F' = steps → stats p = ⟨steps, 0, 0⟩ := by
    intro p hp hseed hrules steps hsteps
    exact hstats p hp steps 0 hsteps (nesting_grown_of_flat hp hseed hrules n)
  have hthird := count_grown_sierpinski n
  refine ⟨?_, ?_, ?_, ?_, ?_, ?_, ⟨?_, ?_⟩, ?_⟩
  · exact hflat koch (by simp [catalog]) rfl (by decide +kernel) _ (count_grown_koch n)
  · exact hflat kochIsland (by simp [catalog]) rfl (by decide +kernel) _ (count_grown_kochIsland n)
  · exact hflat dragon (by simp [catalog]) rfl (by decide +kernel) _ (count_grown_dragon n)
  · exact hflat terdragon (by simp [catalog]) rfl (by decide +kernel) _ (count_grown_terdragon n)
  · exact hflat levy (by simp [catalog]) rfl (by decide +kernel) _ (count_grown_levy n)
  · exact hflat hilbert (by simp [catalog]) rfl (by decide +kernel) _ (count_grown_hilbert n)
  · exact hflat sierpinski (by simp [catalog]) rfl (by decide +kernel) _ (by omega)
  · exact ⟨(sierpinski.grown n).count 'F', by omega⟩
  · exact hstats shrinkingH (by simp [catalog]) _ _ (count_grown_shrinkingH n)
      (nesting_grown_shrinkingH n)

end Preset

end TurtleGrammar
