import Mathlib.Data.Nat.Find
import TurtleGrammar.Description.Grammar

/-! # Capped growth — what a cap refuses and what it leaves alone

    Growth under a cap looks one pass ahead: it compares the cap with the
    length that the next generation would have.  Here the generations are
    written down without any growing, as iterated passes over the seed, and
    growth is compared with them.

    - **No generation beyond the cap**: growth is what it is without the cap.
    - **Some generation beyond it**: the first one is refused, and the system
      has grown exactly the generations before it.

    One of the two holds for every cap (`within_or_firstBeyond`) and never
    both, so each direction of the main result is one of these two runs. -/

namespace TurtleGrammar

namespace LSystem

/-- The word `k` passes ahead of the newest generation. -/
def ahead (s : LSystem) : Nat → Word
  | 0 => s.current
  | k + 1 => s.rules.apply (s.ahead k)

/-- Seen from the next generation, every generation is one pass nearer. -/
theorem ahead_advance (s : LSystem) (k : Nat) : s.advance.ahead k = s.ahead (k + 1) := by
  induction k with
  | zero => exact current_advance s
  | succ k ih =>
      show s.advance.rules.apply (s.advance.ahead k) = s.rules.apply (s.ahead (k + 1))
      rw [ih, rules_advance]

theorem nextLength_eq_ahead (s : LSystem) : s.nextLength = (s.ahead 1).length := by
  rw [nextLength_eq, current_advance]
  rfl

/-! ## Growth without a cap -/

theorem seed_advanceBy (n : Nat) (s : LSystem) : (advanceBy n s).seed = s.seed := by
  induction n generalizing s with
  | zero => rfl
  | succ n ih => exact ih s.advance

/-- Growing `n` times adds the next `n` generations, in order. -/
theorem derived_advanceBy (n : Nat) (s : LSystem) :
    (advanceBy n s).derived.toList
      = s.derived.toList ++ (List.range n).map fun k => s.ahead (k + 1) := by
  induction n generalizing s with
  | zero => simp [advanceBy]
  | succ n ih =>
      have hfirst : s.advance.derived.toList = s.derived.toList ++ [s.ahead 1] :=
        Array.toList_push
      -- seen from the advanced system every later generation is one pass nearer
      have hrest : (List.range n).map (fun k => s.advance.ahead (k + 1))
          = (List.range n).map fun k => s.ahead (k + 1 + 1) :=
        List.map_congr_left fun k _ => ahead_advance s (k + 1)
      rw [advanceBy, ih, hfirst, hrest, List.range_succ_eq_map, List.map_cons, List.map_map,
        List.append_assoc]
      rfl

/-- After `n` passes the newest generation is the one that was `n` ahead. -/
theorem current_advanceBy (n : Nat) (s : LSystem) : (advanceBy n s).current = s.ahead n := by
  induction n generalizing s with
  | zero => rfl
  | succ n ih => rw [advanceBy, ih, ahead_advance]

/-! ## Growth under a cap -/

/-- None of the next `n` generations is beyond the limit, nor is the newest. -/
def Within (s : LSystem) (limit n : Nat) : Prop := ∀ k ≤ n, (s.ahead k).length ≤ limit

/-- The generation `k` passes ahead is the first one beyond the limit, and it is asked
    for when `n` passes are. -/
structure FirstBeyond (s : LSystem) (limit n k : Nat) : Prop where
  le : k ≤ n
  beyond : limit < (s.ahead k).length
  before : ∀ j < k, (s.ahead j).length ≤ limit

/-- The `k`th generation ahead is the first one past the limit when it is past it and none before
    it is. -/
theorem firstBeyond_iff {s : LSystem} {limit n k : Nat} :
    s.FirstBeyond limit n k ↔
      k ≤ n ∧ limit < (s.ahead k).length ∧ ∀ j < k, (s.ahead j).length ≤ limit :=
  ⟨fun h => ⟨h.le, h.beyond, h.before⟩, fun ⟨hle, hbeyond, hbefore⟩ => ⟨hle, hbeyond, hbefore⟩⟩

/-- Either all generations are within the limit or there is a first one that is not. -/
theorem within_or_firstBeyond (s : LSystem) (limit n : Nat) :
    s.Within limit n ∨ ∃ k, s.FirstBeyond limit n k := by
  by_cases hex : ∃ k, k ≤ n ∧ limit < (s.ahead k).length
  · obtain ⟨hle, hbeyond⟩ := Nat.find_spec hex
    refine Or.inr ⟨Nat.find hex, hle, hbeyond, ?_⟩
    intro j hj
    have hnot : ¬ (j ≤ n ∧ limit < (s.ahead j).length) := Nat.find_min hex hj
    omega
  · refine Or.inl ?_
    intro k hk
    have hnot : ¬ limit < (s.ahead k).length := fun h => hex ⟨k, hk, h⟩
    omega

theorem FirstBeyond.not_within {s : LSystem} {limit n k : Nat} (h : s.FirstBeyond limit n k) :
    ¬ s.Within limit n := by
  intro hwithin
  have hk : (s.ahead k).length ≤ limit := hwithin k h.le
  exact absurd h.beyond (by omega)

/-- What is within the limit for one pass more is still within it after that pass. -/
theorem Within.advance {s : LSystem} {limit n : Nat} (h : s.Within limit (n + 1)) :
    s.advance.Within limit n := by
  intro k hk
  rw [ahead_advance]
  exact h (k + 1) (by omega)

theorem FirstBeyond.advance {s : LSystem} {limit n k : Nat}
    (h : s.FirstBeyond limit (n + 1) (k + 1)) : s.advance.FirstBeyond limit n k where
  le := Nat.le_of_succ_le_succ h.le
  beyond := by
    rw [ahead_advance]
    exact h.beyond
  before := by
    intro j hj
    rw [ahead_advance]
    exact h.before (j + 1) (by omega)

/-- Under a limit that nothing passes, growth goes on to its end. -/
theorem advanceWithin_of_within {s : LSystem} {limit n : Nat} (h : s.Within limit n) :
    advanceWithin limit n s = .ok (advanceBy n s) := by
  induction n generalizing s with
  | zero => rfl
  | succ n ih =>
      have hnext : ¬ limit < s.nextLength := by
        have hone : (s.ahead 1).length ≤ limit := h 1 (by omega)
        rw [nextLength_eq_ahead]
        omega
      show (if limit < s.nextLength then _ else advanceWithin limit n s.advance) = _
      rw [if_neg hnext, ih h.advance, advanceBy]

/-- The newest generation is not looked at again: the refused one is at least one pass
    ahead. -/
theorem advanceWithin_of_firstBeyond {s : LSystem} {limit n k : Nat}
    (h : s.FirstBeyond limit n (k + 1)) :
    advanceWithin limit n s = .error ⟨limit, (s.ahead (k + 1)).length, advanceBy k s⟩ := by
  induction n generalizing s k with
  | zero => exact absurd h.le (by omega)
  | succ n ih =>
      -- the check is on the next generation, which is one ahead
      show (if limit < s.nextLength then _ else advanceWithin limit n s.advance) = _
      cases k with
      | zero =>
          have hnext : limit < s.nextLength := by
            rw [nextLength_eq_ahead]
            exact h.beyond
          rw [if_pos hnext, nextLength_eq_ahead]
          rfl
      | succ k =>
          have hnext : ¬ limit < s.nextLength := by
            have hone : (s.ahead 1).length ≤ limit := h.before 1 (by omega)
            rw [nextLength_eq_ahead]
            omega
          rw [if_neg hnext, ih h.advance, ahead_advance, advanceBy]

/-- A cap that nothing passes, the newest generation included, changes nothing. -/
theorem grow_of_within {s : LSystem} {limit n : Nat} (h : s.Within limit n) :
    s.grow (some limit) n = .ok (advanceBy n s) := by
  have hcurrent : ¬ limit < s.current.length := by
    have hzero : s.current.length ≤ limit := h 0 (by omega)
    omega
  show (if limit < s.current.length then _ else advanceWithin limit n s) = _
  rw [if_neg hcurrent, advanceWithin_of_within h]

/-- A cap is reported with the length of the first generation past it, and with all generations
    before that one grown. -/
theorem grow_of_firstBeyond {s : LSystem} {limit n k : Nat} (h : s.FirstBeyond limit n k) :
    s.grow (some limit) n = .error ⟨limit, (s.ahead k).length, advanceBy (k - 1) s⟩ := by
  show (if limit < s.current.length then _ else advanceWithin limit n s) = _
  -- the newest generation is refused by a check of its own, before any pass
  cases k with
  | zero =>
      have hcurrent : limit < s.current.length := h.beyond
      rw [if_pos hcurrent]
      rfl
  | succ k =>
      have hcurrent : ¬ limit < s.current.length := by
        have hzero : s.current.length ≤ limit := h.before 0 (by omega)
        omega
      rw [if_neg hcurrent, advanceWithin_of_firstBeyond h]
      rfl

/-- Capped growth succeeds exactly when every generation is within the limit, and then it is
    growth without a cap. -/
theorem grow_eq_ok_iff {s s' : LSystem} {limit n : Nat} :
    s.grow (some limit) n = .ok s' ↔ s.Within limit n ∧ s' = advanceBy n s := by
  rcases within_or_firstBeyond s limit n with hwithin | ⟨k, hfirst⟩
  · rw [grow_of_within hwithin]
    constructor
    · intro h
      exact ⟨hwithin, (Except.ok.inj h).symm⟩
    · rintro ⟨-, rfl⟩
      rfl
  · rw [grow_of_firstBeyond hfirst]
    constructor
    · intro h
      exact nomatch h
    · rintro ⟨hwithin, -⟩
      exact absurd hwithin hfirst.not_within

/-- Capped growth fails exactly when some generation is past the limit, and it stops before the
    first of them. -/
theorem grow_eq_error_iff {s : LSystem} {limit n : Nat} {e : Overrun} :
    s.grow (some limit) n = .error e ↔
      ∃ k, s.FirstBeyond limit n k
        ∧ e = ⟨limit, (s.ahead k).length, advanceBy (k - 1) s⟩ := by
  constructor
  · intro h
    rcases within_or_firstBeyond s limit n with hwithin | ⟨k, hfirst⟩
    · exact nomatch (grow_of_within hwithin).symm.trans h
    · refine ⟨k, hfirst, ?_⟩
      exact (Except.error.inj ((grow_of_firstBeyond hfirst).symm.trans h)).symm
  · rintro ⟨k, hfirst, rfl⟩
    exact grow_of_firstBeyond hfirst

end LSystem

namespace Grammar

/-- Generation `k`: `k` passes over the seed. -/
def generation (g : Grammar) : Nat → Word
  | 0 => g.seed
  | k + 1 => g.ruleSet.apply (g.generation k)

/-- The same grammar with another cap, or with none. -/
def capped (g : Grammar) (limit : Option Nat) : Grammar := { g with maxLength := limit }

/-- What lies ahead of a grammar's fresh system are the generations of the grammar. -/
theorem ahead_lsystem (g : Grammar) (k : Nat) : g.lsystem.ahead k = g.generation k := by
  induction k with
  | zero => rfl
  | succ k ih =>
      show g.ruleSet.apply (g.lsystem.ahead k) = g.ruleSet.apply (g.generation k)
      rw [ih]

theorem derived_lsystem_advanceBy (g : Grammar) (n : Nat) :
    (g.lsystem.advanceBy n).derived.toList
      = (List.range n).map fun k => g.generation (k + 1) := by
  have hahead : (List.range n).map (fun k => g.lsystem.ahead (k + 1))
      = (List.range n).map fun k => g.generation (k + 1) :=
    List.map_congr_left fun k _ => ahead_lsystem g (k + 1)
  rw [LSystem.derived_advanceBy, hahead]
  rfl

/-- The history after `n` passes shows generations `0` to `n`. -/
theorem history_lsystem_advanceBy (g : Grammar) (n : Nat) :
    (g.lsystem.advanceBy n).history = (List.range (n + 1)).map g.generation := by
  rw [LSystem.history, LSystem.seed_advanceBy, derived_lsystem_advanceBy,
    List.range_succ_eq_map, List.map_cons, List.map_map]
  rfl

/-! ## Expanding under a cap -/

/-- Expansion under a cap succeeds exactly when no generation, the seed included, is past it. -/
theorem expand_capped_eq_ok_iff (g : Grammar) (limit : Nat) (s : LSystem) :
    (g.capped (some limit)).expand = .ok s ↔
      (∀ k ≤ g.generations, (g.generation k).length ≤ limit)
        ∧ s = g.lsystem.advanceBy g.generations := by
  have hgrow : (g.capped (some limit)).expand = g.lsystem.grow (some limit) g.generations := rfl
  rw [hgrow, LSystem.grow_eq_ok_iff]
  simp only [LSystem.Within, ahead_lsystem]

/-- Expansion under a cap fails exactly at the first generation past it. -/
theorem expand_capped_eq_error_iff (g : Grammar) (limit : Nat) (e : Overrun) :
    (g.capped (some limit)).expand = .error e ↔
      ∃ k ≤ g.generations, limit < (g.generation k).length
        ∧ (∀ j < k, (g.generation j).length ≤ limit)
        ∧ e = ⟨limit, (g.generation k).length, g.lsystem.advanceBy (k - 1)⟩ := by
  have hgrow : (g.capped (some limit)).expand = g.lsystem.grow (some limit) g.generations := rfl
  rw [hgrow, LSystem.grow_eq_error_iff]
  simp only [LSystem.firstBeyond_iff, ahead_lsystem, and_assoc]

/-- Up to the refusal nothing beyond the cap is built. -/
theorem length_le_of_mem_reached (g : Grammar) (limit : Nat) (e : Overrun)
    (h : (g.capped (some limit)).expand = .error e) :
    ∀ w ∈ e.reached.derived, w.length ≤ limit := by
  intro w hw
  obtain ⟨k, -, -, hbefore, rfl⟩ := (expand_capped_eq_error_iff g limit e).mp h
  have hmem : w ∈ (List.range (k - 1)).map fun j => g.generation (j + 1) := by
    rw [← derived_lsystem_advanceBy]
    exact Array.mem_toList_iff.mpr hw
  obtain ⟨j, hj, rfl⟩ := List.mem_map.mp hmem
  have hlt : j < k - 1 := List.mem_range.mp hj
  exact hbefore (j + 1) (by omega)

theorem expand_uncapped (g : Grammar) :
    (g.capped none).expand = .ok (g.lsystem.advanceBy g.generations) := rfl

/-- Raising the cap turns no success into a refusal and changes no result. -/
theorem expand_capped_mono (g : Grammar) {limit limit' : Nat} (hle : limit ≤ limit')
    {s : LSystem} (h : (g.capped (some limit)).expand = .ok s) :
    (g.capped (some limit')).expand = .ok s := by
  obtain ⟨hwithin, hs⟩ := (expand_capped_eq_ok_iff g limit s).mp h
  refine (expand_capped_eq_ok_iff g limit' s).mpr ⟨?_, hs⟩
  intro k hk
  exact Nat.le_trans (hwithin k hk) hle

/-- Whatever the cap, an expansion that succeeds gives the same system. -/
theorem eq_advanceBy_of_expand (g : Grammar) (limit? : Option Nat) (s : LSystem)
    (h : (g.capped limit?).expand = .ok s) : s = g.lsystem.advanceBy g.generations := by
  cases limit? with
  | none => exact (Except.ok.inj h).symm
  | some limit => exact ((expand_capped_eq_ok_iff g limit s).mp h).2

/-! ## Walking under a cap -/

/-- A walk fails for no other reason than the expansion that it needs. -/
theorem walk_eq_error_iff (g : Grammar) (e : Overrun) :
    g.walk = .error e ↔ g.expand = .error e := by
  rw [walk]
  cases g.expand with
  | error e' => simp [Except.map]
  | ok s => simp [Except.map]

/-- A walk that is given is the walk of a new turtle over the last generation. -/
theorem walk_capped_eq_ok_iff (g : Grammar) (limit? : Option Nat) (t : Turtle) :
    (g.capped limit?).walk = .ok t ↔
      (∃ s, (g.capped limit?).expand = .ok s)
        ∧ t = (Turtle.new g.config).run (g.generation g.generations) := by
  have hlast : (g.lsystem.advanceBy g.generations).current = g.generation g.generations := by
    rw [LSystem.current_advanceBy, ahead_lsystem]
  rw [walk]
  cases hexpand : (g.capped limit?).expand with
  | error e => simp [Except.map]
  | ok s =>
      have hs : s = g.lsystem.advanceBy g.generations := eq_advanceBy_of_expand g limit? s hexpand
      have hwalk : (Turtle.new (g.capped limit?).config).run s.current
          = (Turtle.new g.config).run (g.generation g.generations) := by
        rw [hs, hlast]
        rfl
      simp only [Except.map, hwalk, Except.ok.injEq, exists_eq', true_and]
      exact eq_comm

/-- **What a cap does**: without one all generations are grown.  A cap either admits all
    of them, and then it changes nothing, or refuses the first one that is longer, before
    it or any other word beyond the cap is built.  A walk is refused exactly when the
    expansion is, and is otherwise the walk of the last generation. -/
theorem expand_under_cap (g : Grammar) :
    (∃ s, (g.capped none).expand = .ok s
        ∧ s.history = (List.range (g.generations + 1)).map g.generation)
      ∧ (∀ limit, (∃ s, (g.capped (some limit)).expand = .ok s) ↔
          ∀ k ≤ g.generations, (g.generation k).length ≤ limit)
      ∧ (∀ limit s, (g.capped (some limit)).expand = .ok s → (g.capped none).expand = .ok s)
      ∧ (∀ limit e, (g.capped (some limit)).expand = .error e ↔
          ∃ k ≤ g.generations, limit < (g.generation k).length
            ∧ (∀ j < k, (g.generation j).length ≤ limit)
            ∧ e = ⟨limit, (g.generation k).length, g.lsystem.advanceBy (k - 1)⟩)
      ∧ (∀ limit e, (g.capped (some limit)).expand = .error e →
          ∀ w ∈ e.reached.derived, w.length ≤ limit)
      ∧ (∀ limit limit' s, limit ≤ limit' → (g.capped (some limit)).expand = .ok s →
          (g.capped (some limit')).expand = .ok s)
      ∧ (∀ limit? e, (g.capped limit?).walk = .error e ↔ (g.capped limit?).expand = .error e)
      ∧ ∀ limit? t, (g.capped limit?).walk = .ok t ↔
          (∃ s, (g.capped limit?).expand = .ok s)
            ∧ t = (Turtle.new g.config).run (g.generation g.generations) := by
  refine ⟨?_, ?_, ?_, expand_capped_eq_error_iff g, length_le_of_mem_reached g, ?_, ?_,
    walk_capped_eq_ok_iff g⟩
  · exact ⟨_, expand_uncapped g, history_lsystem_advanceBy g g.generations⟩
  · intro limit
    constructor
    · rintro ⟨s, h⟩
      exact ((expand_capped_eq_ok_iff g limit s).mp h).1
    · intro hwithin
      exact ⟨_, (expand_capped_eq_ok_iff g limit _).mpr ⟨hwithin, rfl⟩⟩
  · intro limit s h
    rw [expand_uncapped, eq_advanceBy_of_expand g (some limit) s h]
  · intro limit limit' s hle h
    exact expand_capped_mono g hle h
  · intro limit? e
    exact walk_eq_error_iff (g.capped limit?) e

end Grammar

end TurtleGrammar
