import TurtleGrammar.Proofs.Afresh
import TurtleGrammar.Proofs.EdgeLog

/-! # Trails — the steps of a walk, one by one

    A graph keeps one point for all origins with the same key, so the exact
    origin of a step cannot be read off it.  The trail of a turtle is the list
    of its steps with both ends exact, in the order in which they are taken.

    - **The trail is all that is recorded**: graph, root and number of steps
      follow from it (`executeAll_records`).
    - **A trail hangs together**: every step starts where the walk started or
      where an earlier step ended (`trail_connected`).  The same holds of the
      positions that open branches will return to, which is why it survives
      their end.

    Both together make the graph of a walk connected from its root. -/

namespace TurtleGrammar

/-- A step from an exact origin to an exact destination. -/
abbrev Step := Point Float × Point Float

/-! ## Recording steps -/

namespace Graph

/-- The graph with steps added one after the other. -/
def draw (g : Graph Float) (steps : List Step) : Graph Float :=
  steps.foldl (fun g e => g.addEdge e.1 e.2) g

theorem draw_append (g : Graph Float) (steps more : List Step) :
    g.draw (steps ++ more) = (g.draw steps).draw more := List.foldl_append

/-- Drawn steps are logged behind the edges that are there. -/
theorem Represents.draw {g : Graph Float} {l : EdgeLog Float} (h : g.Represents l)
    (steps : List Step) : (g.draw steps).Represents ⟨l.quantum, l.edges ++ steps⟩ := by
  induction steps generalizing g l with
  | nil =>
      rw [List.append_nil]
      exact h
  | cons e steps ih =>
      have hrest := ih (h.step (.addEdge e.1 e.2))
      rw [EdgeLog.step, List.append_assoc] at hrest
      exact hrest

end Graph

namespace Turtle

/-! ## The end of a branch -/

/-- The end of a branch that is open. -/
theorem pop_of_branches {t : Turtle} {branches : Array Pose} {pose : Pose}
    (h : t.branches = branches.push pose) :
    t.pop = { t with cursor := { t.cursor with toPose := pose }, branches } := by
  rw [pop, h, Array.back?_push, Array.pop_push]

/-- **Inversion**: a pop gives back the pose of the innermost open branch, or there is none
    and the pop is only counted. -/
theorem pop_cases (t : Turtle) :
    (∃ branches pose, t.branches = branches.push pose
        ∧ t.pop = { t with cursor := { t.cursor with toPose := pose }, branches })
      ∨ t.branches = #[]
        ∧ t.pop
          = { t with stats := { t.stats with unmatchedPops := t.stats.unmatchedPops + 1 } } := by
  cases hback : t.branches.back? with
  | none =>
      refine Or.inr ⟨Array.back?_eq_none_iff.mp hback, ?_⟩
      rw [pop, hback]
  | some pose =>
      obtain ⟨branches, hopen⟩ := Array.back?_eq_some_iff.mp hback
      exact Or.inl ⟨branches, pose, hopen, pop_of_branches hopen⟩

/-! ## The trail -/

/-- What a single command adds to the trail. -/
def mark (t : Turtle) : Command → List Step
  | .forward => [(t.cursor.position, t.cursor.destination)]
  | _ => []

/-- The steps that the commands make the turtle take, in order. -/
def trail (t : Turtle) : List Command → List Step
  | [] => []
  | command :: commands => t.mark command ++ (t.execute command).trail commands

theorem executeAll_append (t : Turtle) (commands more : List Command) :
    t.executeAll (commands ++ more) = (t.executeAll commands).executeAll more :=
  List.foldl_append

/-- The trail goes on from where the first commands have led. -/
theorem trail_append (t : Turtle) (commands more : List Command) :
    t.trail (commands ++ more) = t.trail commands ++ (t.executeAll commands).trail more := by
  induction commands generalizing t with
  | nil => rfl
  | cons command commands ih =>
      show t.mark command ++ (t.execute command).trail (commands ++ more) = _
      rw [ih, ← List.append_assoc]
      rfl

/-- The second turtle is the first one after recording the steps: what else has changed
    does not matter. -/
structure Records (t t' : Turtle) (steps : List Step) : Prop where
  graph : t'.graph = t.graph.draw steps
  root : t'.root = (t.root <|> steps.head?.map Prod.fst)
  forwardSteps : t'.stats.forwardSteps = t.stats.forwardSteps + steps.length

theorem Records.refl (t : Turtle) : t.Records t [] where
  graph := rfl
  root := by cases h : t.root <;> rfl
  forwardSteps := rfl

/-- What is recorded one after the other is recorded in that order. -/
theorem Records.trans {t t' t'' : Turtle} {steps more : List Step} (h : t.Records t' steps)
    (h' : t'.Records t'' more) : t.Records t'' (steps ++ more) where
  graph := by rw [h'.graph, h.graph, Graph.draw_append]
  root := by
    rw [h'.root, h.root]
    -- an older root stays, and then the first of all steps decides
    cases t.root <;> cases steps <;> rfl
  forwardSteps := by rw [h'.forwardSteps, h.forwardSteps, List.length_append, Nat.add_assoc]

/-- A command records the step it marks and nothing else. -/
theorem execute_records (t : Turtle) (command : Command) :
    t.Records (t.execute command) (t.mark command) := by
  have hkept : ∀ t' : Turtle, t'.graph = t.graph → t'.root = t.root →
      t'.stats.forwardSteps = t.stats.forwardSteps → t.Records t' [] := by
    intro t' hgraph hroot hsteps
    have hrefl := Records.refl t
    exact ⟨hgraph.trans hrefl.graph, hroot.trans hrefl.root, hsteps.trans hrefl.forwardSteps⟩
  cases command with
  | forward => exact ⟨rfl, rfl, rfl⟩
  | pop =>
      show t.Records t.pop []
      rcases t.pop_cases with ⟨branches, pose, -, hpop⟩ | ⟨-, hpop⟩
      · rw [hpop]
        exact hkept _ rfl rfl rfl
      · rw [hpop]
        exact hkept _ rfl rfl rfl
  | _ => exact hkept _ rfl rfl rfl

/-- **The trail is all that is recorded.** -/
theorem executeAll_records (t : Turtle) (commands : List Command) :
    t.Records (t.executeAll commands) (t.trail commands) := by
  induction commands generalizing t with
  | nil => exact Records.refl t
  | cons command commands ih => exact (t.execute_records command).trans (ih (t.execute command))

/-! ## Walks -/

/-- The turtle before the first command of a walk: back at its start, with the grid chosen
    for the whole word. -/
def ready (t : Turtle) (w : Word) : Turtle :=
  { t.reset with graph := .withQuantum (nodeQuantum t.config (Command.ofWord w)) }

theorem run_eq_executeAll (t : Turtle) (w : Word) :
    t.run w = (t.ready w).executeAll (Command.ofWord w) := rfl

/-- The steps of a walk, in order. -/
def trailOf (t : Turtle) (w : Word) : List Step := (t.ready w).trail (Command.ofWord w)

/-- **Run**: a walk records its trail. -/
theorem run_records (t : Turtle) (w : Word) : (t.ready w).Records (t.run w) (t.trailOf w) :=
  (t.ready w).executeAll_records (Command.ofWord w)

/-! ## Where steps start -/

/-- The places that the turtle can be at without a further step: where it is, and where
    the ends of open branches will take it. -/
structure StandsOn (t : Turtle) (places : List (Point Float)) : Prop where
  position : t.cursor.position ∈ places
  branches : ∀ pose ∈ t.branches, pose.position ∈ places

/-- Every step starts at one of the places or at the destination of an earlier step. -/
def Connected (places : List (Point Float)) : List Step → Prop
  | [] => True
  | e :: steps => e.1 ∈ places ∧ Connected (e.2 :: places) steps

/-- Further steps connect to the places that those before have led to. -/
theorem connected_append {places : List (Point Float)} {steps more : List Step} :
    Connected places (steps ++ more)
      ↔ Connected places steps ∧ Connected ((steps.map Prod.snd).reverse ++ places) more := by
  induction steps generalizing places with
  | nil => exact (and_iff_right trivial).symm
  | cons e steps ih =>
      show e.1 ∈ places ∧ Connected (e.2 :: places) (steps ++ more) ↔ _
      rw [ih, List.map_cons, List.reverse_cons, List.append_assoc, ← and_assoc]
      rfl

/-- **Step lemma**: a command takes the turtle to a place that it could be at, or along
    its step to a new one. -/
theorem StandsOn.execute {t : Turtle} {places : List (Point Float)} (h : t.StandsOn places)
    (command : Command) :
    (t.execute command).StandsOn (((t.mark command).map Prod.snd).reverse ++ places) := by
  cases command with
  | forward =>
      refine ⟨List.mem_cons_self, ?_⟩
      intro pose hpose
      exact List.mem_cons_of_mem _ (h.branches pose hpose)
  | turnRight => exact ⟨h.position, h.branches⟩
  | turnLeft => exact ⟨h.position, h.branches⟩
  | scaleUp => exact ⟨h.position, h.branches⟩
  | scaleDown => exact ⟨h.position, h.branches⟩
  | push =>
      refine ⟨h.position, ?_⟩
      intro pose hpose
      rcases Array.mem_push.mp hpose with hold | rfl
      · exact h.branches pose hold
      · exact h.position
  | pop =>
      show t.pop.StandsOn places
      -- the place gone back to is one that was saved while the turtle stood there
      rcases t.pop_cases with ⟨branches, pose, hopen, hpop⟩ | ⟨-, hpop⟩
      · rw [hpop]
        have hplaces := h.branches
        rw [hopen] at hplaces
        refine ⟨hplaces pose Array.mem_push_self, ?_⟩
        intro pose' hpose'
        exact hplaces pose' (Array.mem_push_of_mem pose hpose')
      · rw [hpop]
        exact ⟨h.position, h.branches⟩

/-- A step starts on a place that has been reached. -/
theorem StandsOn.mark_connected {t : Turtle} {places : List (Point Float)}
    (h : t.StandsOn places) (command : Command) : Connected places (t.mark command) := by
  cases command with
  | forward => exact ⟨h.position, trivial⟩
  | _ => trivial

/-- **Run lemma**: the trail of a turtle starts from the places that it can be at. -/
theorem StandsOn.trail_connected {t : Turtle} {places : List (Point Float)}
    (h : t.StandsOn places) (commands : List Command) :
    Connected places (t.trail commands) := by
  induction commands generalizing t places with
  | nil => trivial
  | cons command commands ih =>
      exact connected_append.mpr ⟨h.mark_connected command, ih (h.execute command)⟩

end Turtle

end TurtleGrammar
