import TurtleGrammar.Turtle.Basic

/-! # Walks start afresh — a turtle's past has no effect on its next walk

    A turtle is used many times: it walks words and takes up settings in any
    order.  Of all that, its next walk depends on the settings that were taken
    up last and on nothing else, so it is the walk of a turtle made with them.

    - **No command changes the settings**, so they can be followed through a
      past without looking at what was walked (`config_applyAll`).
    - **`Turtle.reset` leaves one trace**, the grid of the graph.  A walk
      chooses its own grid before the first step, which removes that trace as
      well (`run_eq`). -/

namespace TurtleGrammar

/-- One use of a turtle. -/
inductive TurtleOp where
  | run (w : Word)
  | reconfigure (config : TurtleConfig)

/-- The settings in force after some uses of a turtle made with `config`: those that
    were taken up last. -/
def TurtleOp.inForce (config : TurtleConfig) : List TurtleOp → TurtleConfig
  | [] => config
  | .run _ :: ops => inForce config ops
  | .reconfigure config' :: ops => inForce config' ops

namespace Turtle

/-- Uses a turtle once. -/
def step (t : Turtle) : TurtleOp → Turtle
  | .run w => t.run w
  | .reconfigure config => t.reconfigure config

/-- Uses a turtle over and over. -/
def applyAll (t : Turtle) (ops : List TurtleOp) : Turtle := ops.foldl step t

/-! ## The settings -/

@[simp] theorem config_new (config : TurtleConfig) : (new config).config = config := rfl

@[simp] theorem config_reset (t : Turtle) : t.reset.config = t.config := rfl

@[simp] theorem config_reconfigure (t : Turtle) (config : TurtleConfig) :
    (t.reconfigure config).config = config := rfl

@[simp] theorem config_execute (t : Turtle) (command : Command) :
    (t.execute command).config = t.config := by
  cases command with
  | pop =>
      show t.pop.config = t.config
      unfold pop
      -- whether or not a branch is open
      split <;> rfl
  | _ => rfl

/-- Settings last through any commands. -/
@[simp] theorem config_executeAll (t : Turtle) (commands : List Command) :
    (t.executeAll commands).config = t.config := by
  induction commands generalizing t with
  | nil => rfl
  | cons command commands ih =>
      have hstep : (t.execute command).config = t.config := config_execute t command
      exact (ih (t.execute command)).trans hstep

/-- A walk leaves the settings as they were. -/
@[simp] theorem config_run (t : Turtle) (w : Word) : (t.run w).config = t.config := by
  rw [run, config_executeAll, config_reset]

/-- Through any past, the settings are the ones taken up last. -/
theorem config_applyAll (t : Turtle) (ops : List TurtleOp) :
    (t.applyAll ops).config = TurtleOp.inForce t.config ops := by
  induction ops generalizing t with
  | nil => rfl
  | cons op ops ih =>
      have hrest : (t.applyAll (op :: ops)).config = TurtleOp.inForce (t.step op).config ops :=
        ih (t.step op)
      cases op with
      | run w => rw [hrest, step, config_run, TurtleOp.inForce]
      | reconfigure config => rw [hrest, step, config_reconfigure, TurtleOp.inForce]

/-! ## What is left of the past -/

/-- The grid of the graph is all that a reset does not rebuild from the settings. -/
theorem reset_eq (t : Turtle) :
    t.reset = { new t.config with graph := .withQuantum t.graph.quantum } := by
  rw [reset, Graph.clear_eq]
  rfl

/-- Which grid was left has no influence, because a walk starts on a grid of its own. -/
theorem run_eq (t : Turtle) (w : Word) : t.run w = (new t.config).run w := by
  simp only [run, reset_eq, config_new, Graph.reset_eq]

/-- A turtle with new settings is a new turtle, but for the quantum that its empty graph keeps. -/
theorem reconfigure_eq (t : Turtle) (config : TurtleConfig) :
    t.reconfigure config
      = { new config with
          graph := { (new config).graph with quantum := t.graph.quantum } } := by
  rw [reconfigure, reset_eq]
  rfl

/-- **A walk is independent of the past**: whatever words a turtle walked and whatever
    settings it took up, it walks the next word as a new turtle with the settings in
    force does, in every part of its state.  Taking up settings makes it that new turtle
    at once, but for the grid of its graph, which stays. -/
theorem independent_of_past (config : TurtleConfig) (ops : List TurtleOp) :
    ((new config).applyAll ops).config = TurtleOp.inForce config ops
      ∧ (∀ w, ((new config).applyAll ops).run w = (new (TurtleOp.inForce config ops)).run w)
      ∧ ∀ config', ((new config).applyAll ops).reconfigure config'
          = { new config' with
              graph := { (new config').graph with
                quantum := ((new config).applyAll ops).graph.quantum } } := by
  have hconfig : ((new config).applyAll ops).config = TurtleOp.inForce config ops :=
    config_applyAll (new config) ops
  refine ⟨hconfig, ?_, ?_⟩
  · intro w
    rw [run_eq, hconfig]
  · intro config'
    exact reconfigure_eq ((new config).applyAll ops) config'

end Turtle

end TurtleGrammar
