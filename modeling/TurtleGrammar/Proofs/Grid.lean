import Mathlib.Data.List.Basic
import TurtleGrammar.Proofs.Branches
import TurtleGrammar.Proofs.Connected
import TurtleGrammar.Proofs.FloatOrder

/-! # The grid of a walk — as fine as its shortest step

    The grid is chosen before the first step, from lengths that are computed
    without walking.  Here they are compared with the lengths that the turtle
    has when it takes its steps, and the choice with the shortest of them.

    - **The lengths are the same**, float for float and step for step: neither
      the walk nor the computation gives a length back at the end of a branch
      (`strides_eq`).
    - **The shortest step is found**: the size that decides is that of a step
      which counts, and no step which counts has a smaller one
      (`isShortest_shortest?`). -/

namespace TurtleGrammar

open Scalar

/-! ## The shortest of some lengths -/

/-- A running minimum is what it is meant to be.  Before the first length that counts it is
    `none` and every size is below its bound, the infinity. -/
structure IsShortest (lengths : List Float) (least : Option Float) : Prop where
  attained : ∀ size ∈ least, ∃ l ∈ lengths, Counts l ∧ l.abs = size
  minimal : ∀ l ∈ lengths, Counts l → ¬ l.abs < least.getD (1 / 0)

theorem isShortest_nil : IsShortest [] none where
  attained := nofun
  minimal := nofun

/-- Sizes below the bound are finite. -/
theorem IsShortest.lt_infinity {lengths : List Float} {least : Option Float}
    (h : IsShortest lengths least) {size : Float} (hsize : size < least.getD (1 / 0)) :
    size < 1 / 0 := by
  cases least with
  | none => exact hsize
  | some bound =>
      obtain ⟨l, -, hl, rfl⟩ := h.attained bound rfl
      exact float_lt_trans hsize (counts_iff.mp hl).2

/-- **Step lemma**: a running minimum stays one when a length is taken into account. -/
theorem IsShortest.concat {lengths : List Float} {least : Option Float}
    (h : IsShortest lengths least) (length : Float) :
    IsShortest (lengths ++ [length]) (shorter least length) := by
  have hcondition : (decide (0 < length.abs) && decide (length.abs < least.getD (1 / 0))) = true
      ↔ 0 < length.abs ∧ length.abs < least.getD (1 / 0) := by
    rw [Bool.and_eq_true, decide_eq_true_iff, decide_eq_true_iff]
  -- the new length is below the minimum so far, or the minimum stays
  by_cases hshorter : 0 < length.abs ∧ length.abs < least.getD (1 / 0)
  · obtain ⟨hpos, hbelow⟩ := hshorter
    have hcounts : Counts length := counts_iff.mpr ⟨hpos, h.lt_infinity hbelow⟩
    have hnew : shorter least length = some length.abs := if_pos (hcondition.mpr ⟨hpos, hbelow⟩)
    rw [hnew]
    refine ⟨?_, List.forall_mem_append.mpr ⟨?_, List.forall_mem_singleton.mpr ?_⟩⟩
    · rintro _ ⟨⟩
      exact ⟨length, List.mem_concat_self, hcounts, rfl⟩
    · intro l hl hl' hlt
      exact h.minimal l hl hl' (float_lt_trans hlt hbelow)
    · intro _
      exact float_lt_irrefl length.abs
  · have hold : shorter least length = least := if_neg fun hc => hshorter (hcondition.mp hc)
    rw [hold]
    refine ⟨?_, List.forall_mem_append.mpr ⟨h.minimal, List.forall_mem_singleton.mpr ?_⟩⟩
    · intro size hsize
      obtain ⟨l, hl, hl'⟩ := h.attained size hsize
      exact ⟨l, List.mem_append_left _ hl, hl'⟩
    · intro hcounts hbelow
      exact hshorter ⟨(counts_iff.mp hcounts).1, hbelow⟩

/-- **Run lemma**: the minimum over all lengths. -/
theorem isShortest_shortest? (lengths : List Float) : IsShortest lengths (shortest? lengths) := by
  induction lengths using List.reverseRecOn with
  | nil => exact isShortest_nil
  | append_singleton lengths length ih =>
      rw [shortest?, List.foldl_concat]
      exact ih.concat length

/-- The quantum is the fixed fraction of the least size, where there is one, and zero where no
    length counts. -/
theorem nodeQuantum_cases (config : TurtleConfig) (commands : List Command) :
    (∃ l ∈ stepLengths config.factor config.length commands, Counts l
        ∧ nodeQuantum config commands = NodeKey.tolerance * l.abs
        ∧ ∀ l' ∈ stepLengths config.factor config.length commands, Counts l' → ¬ l'.abs < l.abs)
      ∨ (∀ l ∈ stepLengths config.factor config.length commands, ¬ Counts l)
        ∧ nodeQuantum config commands = 0 := by
  have hshortest := isShortest_shortest? (stepLengths config.factor config.length commands)
  rw [nodeQuantum]
  -- no minimum means that no length is below infinity, so that none counts
  cases hleast : shortest? (stepLengths config.factor config.length commands) with
  | none =>
      rw [hleast] at hshortest
      refine Or.inr ⟨?_, rfl⟩
      intro l hl hcounts
      exact hshortest.minimal l hl hcounts (counts_iff.mp hcounts).2
  | some size =>
      rw [hleast] at hshortest
      obtain ⟨l, hl, hcounts, rfl⟩ := hshortest.attained size rfl
      exact Or.inl ⟨l, hl, hcounts, rfl, hshortest.minimal⟩

/-- There is one length for every step forward. -/
theorem length_stepLengths (factor length : Float) (commands : List Command) :
    (stepLengths factor length commands).length = commands.count .forward := by
  induction commands generalizing length with
  | nil => rfl
  | cons command commands ih =>
      cases command with
      | forward =>
          rw [List.count_cons_self]
          exact congrArg (· + 1) (ih length)
      | scaleUp => exact ih (length * factor)
      | scaleDown => exact ih (length / factor)
      | _ => exact ih length

/-! ## The lengths of the steps of a walk -/

namespace Turtle

/-- The length with which a command takes a step, if it takes one. -/
def stride (t : Turtle) : Command → List Float
  | .forward => [t.cursor.length]
  | _ => []

/-- The lengths with which the commands make the turtle take its steps, in order. -/
def strides (t : Turtle) : List Command → List Float
  | [] => []
  | command :: commands => t.stride command ++ (t.execute command).strides commands

/-- **The lengths are the same**: those of a walk and those computed without one. -/
theorem strides_eq (t : Turtle) (commands : List Command) :
    t.strides commands = stepLengths t.config.factor t.cursor.length commands := by
  induction commands generalizing t with
  | nil => rfl
  | cons command commands ih =>
      show t.stride command ++ (t.execute command).strides commands = _
      rw [ih, config_execute, length_execute]
      cases command <;> rfl

/-- The lengths of the steps of a walk. -/
def stridesOf (t : Turtle) (w : Word) : List Float := (t.ready w).strides (Command.ofWord w)

/-- The strides of a walk are the step lengths of its commands. -/
theorem stridesOf_eq (t : Turtle) (w : Word) :
    t.stridesOf w = stepLengths t.config.factor t.config.length (Command.ofWord w) :=
  (t.ready w).strides_eq (Command.ofWord w)

theorem quantum_run (t : Turtle) (w : Word) :
    (t.run w).graph.quantum = nodeQuantum t.config (Command.ofWord w) :=
  (t.run_represents w).quantum

/-- The length that is computed for a step is the one that the turtle has when it comes to the
    symbol of the step. -/
theorem getElem?_stepLengths (t : Turtle) {w u v : Word} (h : w = u ++ 'F' :: v) :
    (stepLengths t.config.factor t.config.length (Command.ofWord w))[u.count 'F']?
      = some ((t.ready w).executeAll (Command.ofWord u)).cursor.length := by
  have hcommands : Command.ofWord w = Command.ofWord u ++ .forward :: Command.ofWord v := by
    rw [h, Command.ofWord_append]
    rfl
  have hindex : u.count 'F'
      = (stepLengths t.config.factor t.config.length (Command.ofWord u)).length := by
    rw [length_stepLengths, Command.count_ofWord]
    rfl
  rw [hcommands, stepLengths_append, hindex, List.getElem?_append_right (Nat.le_refl _),
    Nat.sub_self, length_executeAll]
  rfl

/-- **The grid of a walk**: the lengths from which it is chosen are those of the steps of the
    walk, each at the symbol of its step.  So the quantum is the fixed fraction of the size
    of the shortest step that counts, which exists if any step counts, and zero otherwise. -/
theorem grid_of_steps (t : Turtle) (w : Word) :
    stepLengths t.config.factor t.config.length (Command.ofWord w) = t.stridesOf w
      ∧ (∀ u v, w = u ++ 'F' :: v →
          (stepLengths t.config.factor t.config.length (Command.ofWord w))[u.count 'F']?
            = some ((t.ready w).executeAll (Command.ofWord u)).cursor.length)
      ∧ ((∃ l ∈ t.stridesOf w, Counts l
            ∧ (t.run w).graph.quantum = NodeKey.tolerance * l.abs
            ∧ ∀ l' ∈ t.stridesOf w, Counts l' → ¬ l'.abs < l.abs)
          ∨ (∀ l ∈ t.stridesOf w, ¬ Counts l) ∧ (t.run w).graph.quantum = 0) := by
  refine ⟨(t.stridesOf_eq w).symm, ?_, ?_⟩
  · intro u v h
    exact t.getElem?_stepLengths h
  · rw [stridesOf_eq, quantum_run]
    exact nodeQuantum_cases t.config (Command.ofWord w)

/-- The step after a branch is as short as it was made in the branch. -/
theorem grid_of_steps_branch :
    let t := new { length := 1, factor := 0.5 }
    let w := "F>[F>]F".toList
    ((t.ready w).executeAll (Command.ofWord "F>[F>]".toList)).cursor.length = 0.25 := by
  intro t w
  have hlengths : (stepLengths 0.5 1 (Command.ofWord w))[2]? = some 0.25 := by decide +kernel
  obtain ⟨-, hsteps, -⟩ := t.grid_of_steps w
  have hlast := hsteps "F>[F>]".toList [] rfl
  exact Option.some.inj (hlast.symm.trans hlengths)

end Turtle

end TurtleGrammar
