import Mathlib.Data.List.Basic
import TurtleGrammar.Proofs.Caps

/-! # Canonical systems — a system is its seed after some number of passes

    A system is advanced and reset in any order, and its history is read at any
    time.  Whatever was done to it, it is the system of its seed and its rules
    after some number of passes, and that number is the only thing that the
    uses of a system decide.

    - `RuleSet.Rewrites` is a pass symbol by symbol, as a relation between two
      words.  It holds of a word and what `RuleSet.apply` makes of it and of no
      other two (`RuleSet.rewrites_iff`).
    - `LSystem.Canonical` collects what the history of a system is like.  Every
      use of a system leads from one number of passes to another
      (`step_advanceBy`), so every sequence of uses does. -/

namespace TurtleGrammar

/-! ## Passes -/

/-- A pass over the first word gives the second: every symbol gives its replacement, or
    itself where it has none, in the order of the symbols. -/
inductive RuleSet.Rewrites (r : RuleSet) : Word → Word → Prop where
  | nil : Rewrites r [] []
  | replaced {c : Char} {w u v : Word} :
      r.get? c = some w → Rewrites r u v → Rewrites r (c :: u) (w ++ v)
  | kept {c : Char} {u v : Word} :
      r.get? c = none → Rewrites r u v → Rewrites r (c :: u) (c :: v)

namespace RuleSet

theorem rewrites_apply (r : RuleSet) (u : Word) : r.Rewrites u (r.apply u) := by
  induction u with
  | nil => exact .nil
  | cons c u ih =>
      rw [apply_cons]
      cases hc : r.get? c with
      | none =>
          rw [image_of_none hc]
          exact .kept hc ih
      | some w =>
          rw [image_of_some hc]
          exact .replaced hc ih

/-- A pass is the only way to rewrite a word. -/
theorem rewrites_iff {r : RuleSet} {u v : Word} : r.Rewrites u v ↔ r.apply u = v := by
  constructor
  · intro h
    induction h with
    | nil => rfl
    | replaced hc _ ih => rw [apply_cons, image_of_some hc, ih]
    | kept hc _ ih =>
        rw [apply_cons, image_of_none hc, ih]
        rfl
  · rintro rfl
    exact rewrites_apply r u

end RuleSet

/-! ## Uses of a system -/

/-- One use of a system. -/
inductive SystemOp where
  | advance
  | advanceBy (n : Nat)
  | reset

namespace LSystem

/-- Uses a system once. -/
def step (s : LSystem) : SystemOp → LSystem
  | .advance => s.advance
  | .advanceBy n => s.advanceBy n
  | .reset => s.reset

/-- Uses a system over and over. -/
def applyAll (s : LSystem) (ops : List SystemOp) : LSystem := ops.foldl step s

theorem rules_advanceBy (n : Nat) (s : LSystem) : (advanceBy n s).rules = s.rules := by
  induction n generalizing s with
  | zero => rfl
  | succ n ih => exact (ih s.advance).trans s.rules_advance

/-- Systems with one seed are equal exactly if their rules are, however far they have grown. -/
theorem advanceBy_new_inj {r r' : RuleSet} {seed : Word} {n : Nat} :
    advanceBy n (new seed r) = advanceBy n (new seed r') ↔ r = r' := by
  constructor
  · intro h
    have hrules := congrArg rules h
    rw [rules_advanceBy, rules_advanceBy] at hrules
    exact hrules
  · rintro rfl
    rfl

/-- One pass after `n` passes makes `n + 1`. -/
theorem advance_advanceBy (n : Nat) (s : LSystem) :
    (advanceBy n s).advance = advanceBy (n + 1) s := by
  induction n generalizing s with
  | zero => rfl
  | succ n ih => exact ih s.advance

/-- Passes add up. -/
theorem advanceBy_advanceBy (m n : Nat) (s : LSystem) :
    advanceBy n (advanceBy m s) = advanceBy (n + m) s := by
  induction m generalizing s with
  | zero => rfl
  | succ m ih => exact ih s.advance

theorem reset_eq_new (s : LSystem) : s.reset = new s.seed s.rules := rfl

/-- A reset takes back any number of passes. -/
theorem reset_advanceBy (seed : Word) (rules : RuleSet) (n : Nat) :
    (advanceBy n (new seed rules)).reset = new seed rules := by
  rw [reset_eq_new, seed_advanceBy, rules_advanceBy]
  rfl

/-- **Step lemma**: a use leads from one number of passes to another. -/
theorem step_advanceBy (seed : Word) (rules : RuleSet) (n : Nat) (op : SystemOp) :
    ∃ n', (advanceBy n (new seed rules)).step op = advanceBy n' (new seed rules) := by
  cases op with
  | advance => exact ⟨n + 1, advance_advanceBy n (new seed rules)⟩
  | advanceBy m => exact ⟨m + n, advanceBy_advanceBy n m (new seed rules)⟩
  | reset => exact ⟨0, reset_advanceBy seed rules n⟩

/-- **Run lemma**: so do uses in any number and order. -/
theorem applyAll_advanceBy (seed : Word) (rules : RuleSet) (n : Nat) (ops : List SystemOp) :
    ∃ n', (advanceBy n (new seed rules)).applyAll ops = advanceBy n' (new seed rules) := by
  induction ops generalizing n with
  | nil => exact ⟨n, rfl⟩
  | cons op ops ih =>
      obtain ⟨m, hm⟩ := step_advanceBy seed rules n op
      obtain ⟨n', hn'⟩ := ih m
      refine ⟨n', ?_⟩
      show ((advanceBy n (new seed rules)).step op).applyAll ops = _
      rw [hm, hn']

/-! ## The history -/

/-- Passes add the generations ahead to the history, in order. -/
theorem history_advanceBy (n : Nat) (s : LSystem) :
    (advanceBy n s).history = s.history ++ (List.range n).map fun k => s.ahead (k + 1) := by
  rw [history, seed_advanceBy, derived_advanceBy]
  rfl

theorem history_new_advanceBy (seed : Word) (rules : RuleSet) (n : Nat) :
    (advanceBy n (new seed rules)).history = (List.range (n + 1)).map (new seed rules).ahead := by
  rw [history_advanceBy, List.range_succ_eq_map, List.map_cons, List.map_map]
  rfl

theorem length_history (s : LSystem) : s.history.length = s.generations := by
  rw [history, List.length_cons, Array.length_toList, generations]

/-- With the seed, a system grown `n` times has `n + 1` generations. -/
theorem generations_new_advanceBy (seed : Word) (rules : RuleSet) (n : Nat) :
    (advanceBy n (new seed rules)).generations = n + 1 := by
  rw [← length_history, history_new_advanceBy, List.length_map, List.length_range]

/-- A generation is looked up by its place in the history. -/
theorem generation?_eq (s : LSystem) (i : Nat) : s.generation? i = s.history[i]? := by
  cases i with
  | zero => rfl
  | succ i =>
      rw [history, List.getElem?_cons_succ, Array.getElem?_toList]
      rfl

/-- What the history shows at a place is the generation of that number, once it has been grown. -/
theorem getElem?_history {seed : Word} {rules : RuleSet} {n i : Nat} {w : Word} :
    (advanceBy n (new seed rules)).history[i]? = some w
      ↔ i ≤ n ∧ w = (new seed rules).ahead i := by
  rw [history_new_advanceBy, List.getElem?_map]
  by_cases hi : i < n + 1
  · rw [List.getElem?_range hi, Option.map_some, Option.some.injEq,
      and_iff_right (Nat.le_of_lt_succ hi)]
    exact eq_comm
  · have hnone : (List.range (n + 1))[i]? = none :=
      List.getElem?_eq_none (by rw [List.length_range]; omega)
    rw [hnone]
    refine iff_of_false (fun h => nomatch h) ?_
    rintro ⟨hle, -⟩
    exact hi (Nat.lt_succ_of_le hle)

/-! ## What every system is like -/

/-- The system is the one of the seed and the rules after some number of passes, and its
    history says so. -/
structure Canonical (seed : Word) (rules : RuleSet) (s : LSystem) : Prop where
  keepsRules : s.rules = rules
  nonempty : s.history ≠ []
  first : s.history[0]? = some seed
  /-- Any entry is followed by what a pass over it gives. -/
  next : ∀ i u v, s.history[i]? = some u → s.history[i + 1]? = some v → rules.Rewrites u v
  /-- The number of entries is all that tells it from a new system. -/
  fresh : s = (new seed rules).advanceBy (s.generations - 1)
  counted : s.history.length = s.generations
  newest : s.history.getLast? = some s.current
  generation : ∀ i, s.generation? i = s.history[i]?
  available : ∀ i, (s.generation? i).isSome = true ↔ i < s.generations
  /-- What is appended is the newest generation from then on. -/
  appends : s.advance.history = s.history ++ [s.advance.current]
  appendsAll : ∀ n, ∃ grown, grown.length = n ∧ (s.advanceBy n).history = s.history ++ grown

/-- A system that has only been grown is canonical. -/
theorem advanceBy_canonical (seed : Word) (rules : RuleSet) (n : Nat) :
    Canonical seed rules (advanceBy n (new seed rules)) where
  keepsRules := rules_advanceBy n (new seed rules)
  nonempty := List.cons_ne_nil _ _
  first := getElem?_history.mpr ⟨Nat.zero_le n, rfl⟩
  next := by
    intro i u v hu hv
    -- both entries are generations, one pass apart
    obtain ⟨-, rfl⟩ := getElem?_history.mp hu
    obtain ⟨-, rfl⟩ := getElem?_history.mp hv
    exact rules.rewrites_apply ((new seed rules).ahead i)
  fresh := by rw [generations_new_advanceBy, Nat.add_sub_cancel]
  counted := length_history _
  newest := by
    rw [history_new_advanceBy, current_advanceBy, List.range_succ, List.map_append]
    exact List.getLast?_concat
  generation := generation?_eq _
  available := by
    intro i
    rw [generation?_eq, ← length_history, isSome_getElem?]
  appends := by rw [history_advance, current_advance]
  appendsAll := by
    intro m
    refine ⟨_, ?_, history_advanceBy m _⟩
    rw [List.length_map, List.length_range]

/-- **Canonical systems**: however a system has been used, it is the system of its seed and
    rules after as many passes as it has entries beyond the first.  Two systems of one seed
    and one rule set that have the same number of entries are the same system. -/
theorem applyAll_canonical (seed : Word) (rules : RuleSet) (ops : List SystemOp) :
    Canonical seed rules ((new seed rules).applyAll ops)
      ∧ ∀ ops', ((new seed rules).applyAll ops).generations
            = ((new seed rules).applyAll ops').generations →
          (new seed rules).applyAll ops = (new seed rules).applyAll ops' := by
  have hcanonical : ∀ ops, Canonical seed rules ((new seed rules).applyAll ops) := by
    intro ops
    obtain ⟨n, hn⟩ := applyAll_advanceBy seed rules 0 ops
    have hsame : (new seed rules).applyAll ops = advanceBy n (new seed rules) := hn
    rw [hsame]
    exact advanceBy_canonical seed rules n
  refine ⟨hcanonical ops, ?_⟩
  intro ops' hgenerations
  rw [(hcanonical ops).fresh, (hcanonical ops').fresh, hgenerations]

/-- Two ways to the third pass over the snowflake. -/
theorem applyAll_canonical_koch :
    let used := (new Preset.koch.seed Preset.koch.ruleSet).applyAll
      [.advanceBy 2, .reset, .advance, .advanceBy 2]
    let grown := (new Preset.koch.seed Preset.koch.ruleSet).applyAll [.advanceBy 3]
    used.generations = grown.generations ∧ used = grown := by
  intro used grown
  have hgenerations : used.generations = grown.generations := rfl
  obtain ⟨-, hsame⟩ := applyAll_canonical Preset.koch.seed Preset.koch.ruleSet
    [.advanceBy 2, .reset, .advance, .advanceBy 2]
  exact ⟨hgenerations, hsame _ hgenerations⟩

end LSystem

end TurtleGrammar
