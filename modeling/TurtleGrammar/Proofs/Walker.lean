import TurtleGrammar.Proofs.Trail

/-! # Walkers — the walk that a graph has no part in

    A walker reads a word symbol by symbol and moves as a turtle does.  It draws
    nothing and knows of no grid: it only lists the steps that it takes, each
    from the exact end of the one before it.

    A turtle follows a walker (`Turtle.Follows`) when it stands where the walker
    stands, would come back to the same poses, has counted the same, and has
    drawn the walker's steps, in their order, into the graph that it began
    with.  Every symbol keeps it so (`Follows.read`), whatever the graph made of
    the earlier steps.  Merging nodes therefore never bends a walk, and neither
    the grid nor what is still to be read has an influence on the steps. -/

namespace TurtleGrammar

/-- A turtle without a graph. -/
structure Walker where
  config : TurtleConfig
  position : Point Float
  heading : Float
  length : Float
  /-- The poses that the ends of branches lead back to, innermost first. -/
  saved : List Pose := []
  /-- The steps taken, in order. -/
  steps : List Step := []
  /-- The most poses that were saved at once. -/
  depth : Nat := 0
  /-- Ends of branches at which no pose was saved. -/
  unmatched : Nat := 0

namespace Walker

/-- A walker before its first symbol. -/
def start (config : TurtleConfig) : Walker :=
  { config, position := config.position, heading := config.heading, length := config.length }

/-- Where a step leads: as far as the length, along the heading. -/
def destination (k : Walker) : Point Float :=
  ⟨k.position.x + k.length * k.heading.cos, k.position.y + k.length * k.heading.sin⟩

/-- Reads one symbol. -/
def read (k : Walker) : Char → Walker
  | 'F' => { k with position := k.destination, steps := k.steps ++ [(k.position, k.destination)] }
  | '+' => { k with heading := k.heading - k.config.turn }
  | '-' => { k with heading := k.heading + k.config.turn }
  | '[' =>
      { k with
        saved := ⟨k.position, k.heading⟩ :: k.saved
        depth := max k.depth (k.saved.length + 1) }
  | ']' =>
      match k.saved with
      | [] => { k with unmatched := k.unmatched + 1 }
      | pose :: saved => { k with position := pose.position, heading := pose.heading, saved }
  | '>' => { k with length := k.length * k.config.factor }
  | '<' => { k with length := k.length / k.config.factor }
  | _ => k

/-- Reads a word from left to right. -/
def readAll (k : Walker) (w : Word) : Walker := w.foldl read k

/-- What a walker has become when it has read a word from the configured start. -/
def walk (config : TurtleConfig) (w : Word) : Walker := (start config).readAll w

theorem readAll_append (k : Walker) (u v : Word) :
    k.readAll (u ++ v) = (k.readAll u).readAll v := List.foldl_append

/-- A symbol that is no command is passed over. -/
theorem read_of_none {c : Char} (h : Command.ofSymbol? c = none) (k : Walker) : k.read c = k := by
  have hne : ∀ command : Command, c ≠ command.symbol := by
    rintro command rfl
    exact nomatch h.symm.trans (Command.ofSymbol?_symbol command)
  unfold read
  split
  · exact absurd rfl (hne .forward)
  · exact absurd rfl (hne .turnRight)
  · exact absurd rfl (hne .turnLeft)
  · exact absurd rfl (hne .push)
  · exact absurd rfl (hne .pop)
  · exact absurd rfl (hne .scaleUp)
  · exact absurd rfl (hne .scaleDown)
  · rfl

/-- The end of a branch that was never begun is only counted. -/
theorem read_pop_of_nil {k : Walker} (h : k.saved = []) :
    k.read ']' = { k with unmatched := k.unmatched + 1 } := by
  simp only [read, h]

/-- The end of a branch restores the last pose that was saved. -/
theorem read_pop_of_cons {k : Walker} {pose : Pose} {saved : List Pose}
    (h : k.saved = pose :: saved) :
    k.read ']' = { k with position := pose.position, heading := pose.heading, saved } := by
  simp only [read, h]

end Walker

namespace Turtle

/-! ## Following a walker -/

/-- The turtle has done what the walker has done, and has drawn the walker's steps into the
    graph `drawn`. -/
structure Follows (t : Turtle) (drawn : Graph Float) (k : Walker) : Prop where
  config : t.config = k.config
  cursor : t.cursor = ⟨⟨k.position, k.heading⟩, k.length⟩
  /-- The innermost branch of the turtle is its last. -/
  branches : t.branches.toList.reverse = k.saved
  graph : t.graph = drawn.draw k.steps
  root : t.root = k.steps.head?.map Prod.fst
  forwardSteps : t.stats.forwardSteps = k.steps.length
  maxDepth : t.stats.maxDepth = k.depth
  unmatchedPops : t.stats.unmatchedPops = k.unmatched

namespace Follows

variable {t : Turtle} {drawn : Graph Float} {k : Walker} (h : t.Follows drawn k)
include h

/-- The turtle and its walker take the same step. -/
theorem mark_forward : t.mark .forward = [(k.position, k.destination)] := by
  rw [mark, h.cursor]
  rfl

/-- The walker keeps following through a step forward. -/
theorem forward : t.forward.Follows drawn (k.read 'F') where
  config := h.config
  cursor := by
    rw [Turtle.forward, h.cursor]
    rfl
  branches := h.branches
  graph := by
    have hdraw := (t.execute_records .forward).graph
    rw [h.mark_forward, h.graph, ← Graph.draw_append] at hdraw
    exact hdraw
  root := by
    have hroot := (t.execute_records .forward).root
    rw [h.mark_forward, h.root] at hroot
    refine hroot.trans ?_
    show _ = (k.steps ++ [(k.position, k.destination)]).head?.map Prod.fst
    -- an earlier step decides, if there is one
    cases k.steps <;> rfl
  forwardSteps := by
    show t.stats.forwardSteps + 1 = (k.steps ++ [(k.position, k.destination)]).length
    rw [h.forwardSteps, List.length_append, List.length_singleton]
  maxDepth := h.maxDepth
  unmatchedPops := h.unmatchedPops

theorem push : t.push.Follows drawn (k.read '[') where
  config := h.config
  cursor := h.cursor
  branches := by
    show (t.branches.push t.cursor.toPose).toList.reverse = ⟨k.position, k.heading⟩ :: k.saved
    rw [Array.toList_push, List.reverse_concat, h.branches, h.cursor]
  graph := h.graph
  root := h.root
  forwardSteps := h.forwardSteps
  maxDepth := by
    show max t.stats.maxDepth (t.branches.size + 1) = max k.depth (k.saved.length + 1)
    rw [h.maxDepth, ← h.branches, List.length_reverse, Array.length_toList]
  unmatchedPops := h.unmatchedPops

theorem pop : t.pop.Follows drawn (k.read ']') := by
  rcases t.pop_cases with ⟨branches, pose, hopen, hpop⟩ | ⟨hnone, hpop⟩
  · have hsaved : k.saved = pose :: branches.toList.reverse := by
      rw [← h.branches, hopen, Array.toList_push, List.reverse_concat]
    rw [hpop, Walker.read_pop_of_cons hsaved]
    exact
      { config := h.config
        cursor := by rw [h.cursor]
        branches := rfl
        graph := h.graph
        root := h.root
        forwardSteps := h.forwardSteps
        maxDepth := h.maxDepth
        unmatchedPops := h.unmatchedPops }
  · have hsaved : k.saved = [] := by
      rw [← h.branches, hnone]
      rfl
    rw [hpop, Walker.read_pop_of_nil hsaved]
    exact
      { config := h.config
        cursor := h.cursor
        branches := h.branches
        graph := h.graph
        root := h.root
        forwardSteps := h.forwardSteps
        maxDepth := h.maxDepth
        unmatchedPops := congrArg (· + 1) h.unmatchedPops }

/-- A command that does no more than move the cursor. -/
theorem moved {cursor : Cursor} {k' : Walker} (hconfig : k'.config = k.config)
    (hcursor : cursor = ⟨⟨k'.position, k'.heading⟩, k'.length⟩) (hsaved : k'.saved = k.saved)
    (hsteps : k'.steps = k.steps) (hdepth : k'.depth = k.depth)
    (hunmatched : k'.unmatched = k.unmatched) :
    ({ t with cursor } : Turtle).Follows drawn k' where
  config := h.config.trans hconfig.symm
  cursor := hcursor
  branches := h.branches.trans hsaved.symm
  graph := by rw [h.graph, hsteps]
  root := by rw [h.root, hsteps]
  forwardSteps := by rw [h.forwardSteps, hsteps]
  maxDepth := h.maxDepth.trans hdepth.symm
  unmatchedPops := h.unmatchedPops.trans hunmatched.symm

/-- **Step lemma**: a turtle that obeys a command still follows the walker that reads its
    symbol, and the walker lists the step that the turtle takes. -/
theorem read (command : Command) :
    (t.execute command).Follows drawn (k.read command.symbol)
      ∧ (k.read command.symbol).steps = k.steps ++ t.mark command := by
  have hnone : k.steps = k.steps ++ [] := (List.append_nil _).symm
  cases command with
  | forward =>
      refine ⟨h.forward, ?_⟩
      rw [h.mark_forward]
      rfl
  | turnRight =>
      refine ⟨h.moved rfl ?_ rfl rfl rfl rfl, hnone⟩
      rw [h.cursor, h.config]
      rfl
  | turnLeft =>
      refine ⟨h.moved rfl ?_ rfl rfl rfl rfl, hnone⟩
      rw [h.cursor, h.config]
      rfl
  | push => exact ⟨h.push, hnone⟩
  -- the end of a branch draws nothing, whether it has a beginning or not
  | pop =>
      refine ⟨h.pop, ?_⟩
      show (k.read ']').steps = k.steps ++ []
      rw [List.append_nil]
      cases hsaved : k.saved with
      | nil => rw [Walker.read_pop_of_nil hsaved]
      | cons pose saved => rw [Walker.read_pop_of_cons hsaved]
  | scaleUp =>
      refine ⟨h.moved rfl ?_ rfl rfl rfl rfl, hnone⟩
      rw [h.cursor, h.config]
      rfl
  | scaleDown =>
      refine ⟨h.moved rfl ?_ rfl rfl rfl rfl, hnone⟩
      rw [h.cursor, h.config]
      rfl

/-- **Run lemma**: so it does through a whole word, and the walker lists the trail of the
    turtle. -/
theorem readAll (w : Word) :
    (t.executeAll (Command.ofWord w)).Follows drawn (k.readAll w)
      ∧ (k.readAll w).steps = k.steps ++ t.trail (Command.ofWord w) := by
  induction w generalizing t k with
  | nil => exact ⟨h, (List.append_nil _).symm⟩
  | cons c w ih =>
      show _ ∧ ((k.read c).readAll w).steps = _
      -- symbols that are no commands are skipped by both
      cases hc : Command.ofSymbol? c with
      | none =>
          rw [Command.ofWord, List.filterMap_cons_none hc, Walker.read_of_none hc]
          refine ⟨?_, (ih h).2⟩
          show (t.executeAll (Command.ofWord w)).Follows drawn ((k.read c).readAll w)
          rw [Walker.read_of_none hc]
          exact (ih h).1
      | some command =>
          obtain rfl := Command.ofSymbol?_eq_some.mp hc
          obtain ⟨hstep, hsteps⟩ := h.read command
          obtain ⟨hrest, htrail⟩ := ih hstep
          rw [Command.ofWord, List.filterMap_cons_some hc]
          refine ⟨hrest, ?_⟩
          rw [htrail, hsteps, List.append_assoc]
          rfl

end Follows

/-! ## Walks -/

/-- A turtle that is back at its start follows a walker that has read nothing yet, whatever
    graph it is given. -/
theorem reset_follows (t : Turtle) (g : Graph Float) :
    ({ t.reset with graph := g } : Turtle).Follows g (.start t.config) where
  config := rfl
  cursor := rfl
  branches := rfl
  graph := rfl
  root := rfl
  forwardSteps := rfl
  maxDepth := rfl
  unmatchedPops := rfl

/-- The trail of a turtle is the list of its walker's steps. -/
theorem trailOf_eq_steps (t : Turtle) (w : Word) :
    t.trailOf w = (Walker.walk t.config w).steps :=
  ((t.reset_follows (.withQuantum (nodeQuantum t.config (Command.ofWord w)))).readAll w).2.symm

/-- What is read later takes its steps after those that have been taken. -/
theorem steps_prefix (t : Turtle) (u v : Word) :
    (Walker.walk t.config u).steps <+: (Walker.walk t.config (u ++ v)).steps := by
  obtain ⟨hread, -⟩ := (t.reset_follows t.graph).readAll u
  have hsteps := (hread.readAll v).2
  rw [← Walker.readAll_append] at hsteps
  exact ⟨_, hsteps.symm⟩

/-- **Merging never bends a walk**: a walk takes the steps of a walker that draws nothing,
    ends where it ends and counts what it counts, and its graph is drawn from these steps on
    the grid that was chosen for the word.  On any other grid, and in any other graph, the
    walk is the same.  What a word adds at the end of another changes none of the steps
    before it, though it may change the grid of them all. -/
theorem run_unbent (t : Turtle) (w : Word) :
    (t.run w).Follows (.withQuantum (nodeQuantum t.config (Command.ofWord w)))
        (.walk t.config w)
      ∧ t.trailOf w = (Walker.walk t.config w).steps
      ∧ (∀ g : Graph Float,
          ({ t.reset with graph := g }.executeAll (Command.ofWord w)).Follows g
            (.walk t.config w))
      ∧ ∀ v, t.trailOf w <+: t.trailOf (w ++ v) := by
  have hany : ∀ g : Graph Float,
      ({ t.reset with graph := g }.executeAll (Command.ofWord w)).Follows g
        (.walk t.config w) := by
    intro g
    exact ((t.reset_follows g).readAll w).1
  refine ⟨hany _, t.trailOf_eq_steps w, hany, ?_⟩
  intro v
  rw [trailOf_eq_steps, trailOf_eq_steps]
  exact t.steps_prefix w v

end Turtle

end TurtleGrammar
