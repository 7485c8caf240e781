import Mathlib.Order.Bounds.Basic
import TurtleGrammar.Preset
import TurtleGrammar.Proofs.Decomposition

/-! # Occurring symbols — rules that are never asked for

    The symbols of a seed occur, and so does every symbol of what an occurring
    symbol becomes.  The occurring symbols are the least set that is closed in
    this way (`RuleSet.isLeast_occurs`), and no generation has any others
    (`LSystem.occurs_of_mem_grown`).

    Only what they become matters, therefore.  Two rule sets that agree on it
    grow the same generations from the seed, whatever they make of other
    symbols, and whether a symbol that stays as it is has the rule to stay or no
    rule.  As rule sets they are different even so, and so are their systems. -/

namespace TurtleGrammar

namespace RuleSet

/-! ## Symbols that occur -/

/-- The symbol is one of the seed, or one of what an occurring symbol becomes. -/
inductive Occurs (r : RuleSet) (seed : Word) : Char → Prop where
  | seed {c : Char} : c ∈ seed → Occurs r seed c
  | image {c d : Char} : Occurs r seed c → d ∈ r.image c → Occurs r seed d

/-- The set has the symbols of the seed and, with each symbol, those that it becomes. -/
structure Closed (r : RuleSet) (seed : Word) (symbols : Set Char) : Prop where
  seed : ∀ c ∈ seed, c ∈ symbols
  image : ∀ c ∈ symbols, ∀ d ∈ r.image c, d ∈ symbols

theorem closed_occurs (r : RuleSet) (seed : Word) : r.Closed seed {c | r.Occurs seed c} where
  seed := fun _ hc => .seed hc
  image := fun _ hc _ hd => .image hc hd

/-- Every closed set has the symbols that occur. -/
theorem Closed.of_occurs {r : RuleSet} {seed : Word} {symbols : Set Char}
    (h : r.Closed seed symbols) {c : Char} (hc : r.Occurs seed c) : c ∈ symbols := by
  induction hc with
  | seed hc => exact h.seed _ hc
  | image _ hd ih => exact h.image _ ih _ hd

/-- **Least**: the symbols that occur are the least closed set. -/
theorem isLeast_occurs (r : RuleSet) (seed : Word) :
    IsLeast {symbols | r.Closed seed symbols} {c | r.Occurs seed c} :=
  ⟨r.closed_occurs seed, fun _ hclosed _ hc => hclosed.of_occurs hc⟩

/-! ## Passes over occurring symbols -/

/-- **Step lemma**: a pass over occurring symbols gives occurring symbols. -/
theorem occurs_of_mem_apply {r : RuleSet} {seed w : Word} (hw : ∀ c ∈ w, r.Occurs seed c) :
    ∀ c ∈ r.apply w, r.Occurs seed c := by
  intro d hd
  obtain ⟨c, hc, hdc⟩ := List.mem_flatMap.mp hd
  exact .image (hw c hc) hdc

/-- A pass asks for nothing but the symbols of its word. -/
theorem apply_congr {r r' : RuleSet} {w : Word} (h : ∀ c ∈ w, r.image c = r'.image c) :
    r.apply w = r'.apply w := List.flatMap_congr h

/-- The symbol stays as it is: it has no rule, or the rule to stay. -/
def Keeps (r : RuleSet) (c : Char) : Prop := r.get? c = none ∨ r.get? c = some [c]

theorem Keeps.image_eq {r : RuleSet} {c : Char} (h : r.Keeps c) : r.image c = [c] := by
  rcases h with h | h
  · exact image_of_none h
  · exact image_of_some h

/-- Where the rules differ, the symbol does not occur, or it stays as it is by both. -/
def DiffersIdly (r : RuleSet) (seed : Word) (r' : RuleSet) : Prop :=
  ∀ c, r'.get? c ≠ r.get? c → ¬ r.Occurs seed c ∨ r.Keeps c ∧ r'.Keeps c

/-- On symbols that occur, rule sets that differ idly do the same. -/
theorem DiffersIdly.image_eq {r r' : RuleSet} {seed : Word} (h : r.DiffersIdly seed r') {c : Char}
    (hc : r.Occurs seed c) : r.image c = r'.image c := by
  by_cases hsame : r'.get? c = r.get? c
  · rw [image, image, hsame]
  · rcases h c hsame with hnot | ⟨hr, hr'⟩
    · exact absurd hc hnot
    · rw [hr.image_eq, hr'.image_eq]

theorem differsIdly_refl (r : RuleSet) (seed : Word) : r.DiffersIdly seed r :=
  fun _ hne => absurd rfl hne

/-- One more rule, for a symbol that does not occur or for one to stay as it is. -/
theorem DiffersIdly.insert {r r' : RuleSet} {seed : Word} (h : r.DiffersIdly seed r') {c : Char}
    {w : Word} (hc : ¬ r.Occurs seed c ∨ r.Keeps c ∧ w = [c]) :
    r.DiffersIdly seed (r'.insert c w) := by
  intro d hd
  rw [get?_insert] at hd
  by_cases hcd : c = d
  · subst hcd
    refine hc.imp_right ?_
    rintro ⟨hkeeps, rfl⟩
    refine ⟨hkeeps, .inr ?_⟩
    rw [get?_insert, if_pos rfl]
  · rw [if_neg hcd] at hd
    refine (h d hd).imp_right (And.imp_right ?_)
    intro hkeeps
    rw [Keeps, get?_insert, if_neg hcd]
    exact hkeeps

end RuleSet

/-! ## Generations of occurring symbols -/

namespace LSystem

/-- **Run lemma**: no generation has a symbol that does not occur. -/
theorem occurs_of_mem_grown (r : RuleSet) (seed : Word) (n : Nat) :
    ∀ c ∈ grown r n seed, r.Occurs seed c := by
  induction n with
  | zero => exact fun _ hc => .seed hc
  | succ n ih =>
      rw [grown_succ]
      exact RuleSet.occurs_of_mem_apply ih

/-- **Run lemma**: rule sets that agree on the occurring symbols grow the same words. -/
theorem grown_congr {r r' : RuleSet} {seed : Word}
    (h : ∀ c, r.Occurs seed c → r.image c = r'.image c) (n : Nat) :
    grown r n seed = grown r' n seed := by
  induction n with
  | zero => rfl
  | succ n ih =>
      rw [grown_succ, grown_succ, ← ih]
      exact RuleSet.apply_congr fun c hc => h c (occurs_of_mem_grown r seed n c hc)

/-- What a grown system predicts is the length of the generation after. -/
theorem nextLength_grown (r : RuleSet) (n : Nat) (seed : Word) :
    ((new seed r).advanceBy n).nextLength = (grown r (n + 1) seed).length := by
  rw [nextLength_eq, advance_advanceBy, current_advanceBy, grown_eq_ahead]

/-- Systems with different rules stay different. -/
theorem advanceBy_ne {r r' : RuleSet} (h : r' ≠ r) (seed : Word) (n : Nat) :
    (new seed r').advanceBy n ≠ (new seed r).advanceBy n := by
  intro heq
  exact h (advanceBy_new_inj.mp heq)

/-- **Only occurring symbols matter.**  The occurring symbols are the least closed set, and
    every symbol of every generation is one of them.  Rule sets that make the same of them
    grow the same generations and predict the same lengths.  This is so when rules are added
    or removed, any number of them, that keep their symbols or are for symbols that do not
    occur, although the systems are never equal. -/
theorem grown_of_occurring (r : RuleSet) (seed : Word) :
    IsLeast {symbols | r.Closed seed symbols} {c | r.Occurs seed c}
      ∧ (∀ n, ∀ c ∈ grown r n seed, r.Occurs seed c)
      ∧ (∀ r', (∀ c, r.Occurs seed c → r.image c = r'.image c) → ∀ n,
          grown r n seed = grown r' n seed
            ∧ ((new seed r).advanceBy n).nextLength = ((new seed r').advanceBy n).nextLength)
      ∧ ∀ r', r.DiffersIdly seed r' → ∀ n,
          grown r' n seed = grown r n seed
            ∧ ((new seed r').advanceBy n).nextLength = ((new seed r).advanceBy n).nextLength
            ∧ (r' ≠ r → (new seed r').advanceBy n ≠ (new seed r).advanceBy n) := by
  have hsame : ∀ r', (∀ c, r.Occurs seed c → r.image c = r'.image c) → ∀ n,
      grown r n seed = grown r' n seed
        ∧ ((new seed r).advanceBy n).nextLength = ((new seed r').advanceBy n).nextLength := by
    intro r' h n
    -- a prediction is the length of the next generation, so one more generation has to agree
    rw [nextLength_grown, nextLength_grown, grown_congr h (n + 1)]
    exact ⟨grown_congr h n, rfl⟩
  refine ⟨r.isLeast_occurs seed, occurs_of_mem_grown r seed, hsame, ?_⟩
  intro r' hidly n
  obtain ⟨hgrown, hlength⟩ := hsame r' (fun c hc => hidly.image_eq hc) n
  exact ⟨hgrown.symm, hlength.symm, fun hne => advanceBy_ne hne seed n⟩

/-- The dragon with a rule for the step to stay a step and one for a symbol that it has not. -/
theorem grown_of_occurring_dragon :
    let r := Preset.dragon.ruleSet
    let r' := (r.insert 'F' ['F']).insert 'Q' "FF".toList
    let seed := Preset.dragon.seed
    r.DiffersIdly seed r' ∧ r' ≠ r
      ∧ ∀ n, grown r' n seed = grown r n seed
          ∧ (new seed r').advanceBy n ≠ (new seed r).advanceBy n := by
  intro r r' seed
  have hseed : 'Q' ∉ seed := by decide
  have hrules : ∀ rule ∈ Preset.dragon.rules, 'Q' ∉ rule.2 := by decide
  -- all symbols but the new one form a closed set, so that it never occurs
  have hclosed : r.Closed seed {c | c ≠ 'Q'} := by
    refine ⟨fun c hc => ne_of_mem_of_not_mem hc hseed, ?_⟩
    intro c hc d hd
    cases hget : r.get? c with
    | none =>
        rw [RuleSet.image_of_none hget, List.mem_singleton] at hd
        rw [hd]
        exact hc
    | some w =>
        have hmem : (c, w) ∈ Preset.dragon.rules := (RuleSet.get?_ofList (by decide)).mp hget
        rw [RuleSet.image_of_some hget] at hd
        exact ne_of_mem_of_not_mem hd (hrules (c, w) hmem)
  have hunused : ¬ r.Occurs seed 'Q' := fun hocc => hclosed.of_occurs hocc rfl
  have hstays : r.Keeps 'F' := .inl (by decide)
  have hidly : r.DiffersIdly seed r' :=
    ((r.differsIdly_refl seed).insert (.inr ⟨hstays, rfl⟩)).insert (.inl hunused)
  have hne : r' ≠ r := by decide
  obtain ⟨-, -, -, hsame⟩ := grown_of_occurring r seed
  exact ⟨hidly, hne, fun n => ⟨(hsame r' hidly n).1, (hsame r' hidly n).2.2 hne⟩⟩

end LSystem

end TurtleGrammar
