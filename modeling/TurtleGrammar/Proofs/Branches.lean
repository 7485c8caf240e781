import TurtleGrammar.Proofs.Brackets
import TurtleGrammar.Proofs.Trail

/-! # Branches — what is left of a branch when it has ended

    A branch gives back the pose that it was begun with.  The step length is
    not part of the pose, so scalings inside a branch reach beyond its end; the
    steps that were taken stay recorded; and the greatest depth has to count
    the branch.  Nothing else is left of it.

    The proof rests on what balanced commands cannot do.  They never look at
    the branches that were open before them (`executeAll_keeps`), so where
    they lead depends on settings and cursor alone (`executeAll_alike`).  A
    branch without steps and scalings then only raises the greatest depth,
    which no command ever reads (`executeAll_deepen`). -/

namespace TurtleGrammar

/-! ## Step lengths -/

/-- The step length after a command. -/
def rescale (factor length : Float) : Command → Float
  | .scaleUp => length * factor
  | .scaleDown => length / factor
  | _ => length

/-- Further commands step on with the length to which those before have rescaled it. -/
theorem stepLengths_append (factor length : Float) (commands more : List Command) :
    stepLengths factor length (commands ++ more)
      = stepLengths factor length commands
        ++ stepLengths factor (commands.foldl (rescale factor) length) more := by
  induction commands generalizing length with
  | nil => rfl
  | cons command commands ih =>
      cases command with
      | forward => exact congrArg (length :: ·) (ih length)
      | scaleUp => exact ih (length * factor)
      | scaleDown => exact ih (length / factor)
      | _ => exact ih length

/-- None of the commands changes the length of a step. -/
def Unscaled (commands : List Command) : Prop :=
  ∀ command ∈ commands, command ≠ .scaleUp ∧ command ≠ .scaleDown

/-- Without a scaling command the step length stays the same. -/
theorem Unscaled.foldl_rescale {commands : List Command} (h : Unscaled commands)
    (factor length : Float) : commands.foldl (rescale factor) length = length := by
  induction commands with
  | nil => rfl
  | cons command commands ih =>
      obtain ⟨⟨hup, hdown⟩, hrest⟩ := List.forall_mem_cons.mp h
      have hstep : rescale factor length command = length := by
        cases command with
        | scaleUp => exact absurd rfl hup
        | scaleDown => exact absurd rfl hdown
        | _ => rfl
      rw [List.foldl_cons, hstep, ih hrest]

theorem unscaled_of_notMem {w : Word} (hup : '>' ∉ w) (hdown : '<' ∉ w) :
    Unscaled (Command.ofWord w) := by
  intro command hcommand
  have hsymbol : command.symbol ∈ w := Command.mem_ofWord.mp hcommand
  constructor
  · rintro rfl
    exact hup hsymbol
  · rintro rfl
    exact hdown hsymbol

/-- None of the commands takes a step or changes the length of one. -/
def Idle (commands : List Command) : Prop :=
  ∀ command ∈ commands, command ≠ .forward ∧ command ≠ .scaleUp ∧ command ≠ .scaleDown

theorem Idle.unscaled {commands : List Command} (h : Idle commands) : Unscaled commands :=
  fun command hcommand => (h command hcommand).2

theorem Idle.foldl_rescale {commands : List Command} (h : Idle commands)
    (factor length : Float) : commands.foldl (rescale factor) length = length :=
  h.unscaled.foldl_rescale factor length

theorem Idle.stepLengths_eq_nil {commands : List Command} (h : Idle commands)
    (factor length : Float) : stepLengths factor length commands = [] := by
  induction commands generalizing length with
  | nil => rfl
  | cons command commands ih =>
      obtain ⟨⟨hforward, hup, hdown⟩, hrest⟩ := List.forall_mem_cons.mp h
      cases command with
      | forward => exact absurd rfl hforward
      | scaleUp => exact absurd rfl hup
      | scaleDown => exact absurd rfl hdown
      | _ => exact ih hrest length

theorem idle_of_notMem {w : Word} (hforward : 'F' ∉ w) (hup : '>' ∉ w) (hdown : '<' ∉ w) :
    Idle (Command.ofWord w) := by
  intro command hcommand
  refine ⟨?_, unscaled_of_notMem hup hdown command hcommand⟩
  rintro rfl
  exact hforward (Command.mem_ofWord.mp hcommand)

/-- Beginning and ending a branch is as idle as what the branch holds. -/
theorem Idle.branch {commands : List Command} (h : Idle commands) :
    Idle (.push :: (commands ++ [.pop])) := by
  refine List.forall_mem_cons.mpr ⟨by decide, ?_⟩
  exact List.forall_mem_append.mpr ⟨h, List.forall_mem_singleton.mpr (by decide)⟩

/-- Idle commands in the middle of others have no influence on the grid. -/
theorem Idle.nodeQuantum_insert {commands : List Command} (h : Idle commands)
    (config : TurtleConfig) (before after : List Command) :
    nodeQuantum config (before ++ (commands ++ after)) = nodeQuantum config (before ++ after) := by
  rw [nodeQuantum, nodeQuantum, stepLengths_append, stepLengths_append, stepLengths_append,
    h.stepLengths_eq_nil, h.foldl_rescale, List.nil_append]

/-! ## Balanced commands -/

namespace Turtle

/-- A command that is no end of a branch changes neither the open branches nor the count of
    unmatched ends. -/
theorem execute_keeps {command : Command} (hpush : command ≠ .push) (hpop : command ≠ .pop)
    (t : Turtle) :
    (t.execute command).branches = t.branches
      ∧ (t.execute command).stats.unmatchedPops = t.stats.unmatchedPops := by
  cases command with
  | push => exact absurd rfl hpush
  | pop => exact absurd rfl hpop
  | _ => exact ⟨rfl, rfl⟩

/-- The turtle after a branch of the given commands. -/
def afterBranch (t : Turtle) (commands : List Command) : Turtle :=
  let inside := t.push.executeAll commands
  { inside with
    cursor := { inside.cursor with toPose := t.cursor.toPose }
    branches := t.branches }

/-- As long as the commands inside keep the open branches, the end of their branch is the
    end of the one that was begun for them. -/
theorem executeAll_branch_of {t : Turtle} {inner : List Command}
    (h : (t.push.executeAll inner).branches = t.push.branches) (rest : List Command) :
    t.executeAll (.push :: (inner ++ .pop :: rest)) = (t.afterBranch inner).executeAll rest := by
  have hsplit : t.executeAll (.push :: (inner ++ .pop :: rest))
      = (t.push.executeAll inner).pop.executeAll rest :=
    executeAll_append t.push inner (.pop :: rest)
  rw [hsplit, pop_of_branches h]
  rfl

/-- **Frame**: balanced commands give back the open branches as they found them, and none
    of their pops is without a branch. -/
theorem executeAll_keeps {commands : List Command} (h : Balanced .push .pop commands)
    (t : Turtle) :
    (t.executeAll commands).branches = t.branches
      ∧ (t.executeAll commands).stats.unmatchedPops = t.stats.unmatchedPops := by
  induction h generalizing t with
  | nil => exact ⟨rfl, rfl⟩
  | @other command _ hpush hpop _ ih =>
      obtain ⟨hbranches, hunmatched⟩ := execute_keeps hpush hpop t
      obtain ⟨hbranches', hunmatched'⟩ := ih (t.execute command)
      exact ⟨hbranches'.trans hbranches, hunmatched'.trans hunmatched⟩
  | @branch inner rest _ _ ihinner ihrest =>
      obtain ⟨hbranches, hunmatched⟩ := ihinner t.push
      rw [executeAll_branch_of hbranches]
      obtain ⟨hbranches', hunmatched'⟩ := ihrest (t.afterBranch inner)
      exact ⟨hbranches', hunmatched'.trans hunmatched⟩

/-- After a branch the rest is executed as from where the branch ended. -/
theorem executeAll_branch {inner : List Command} (h : Balanced .push .pop inner) (t : Turtle)
    (rest : List Command) :
    t.executeAll (.push :: (inner ++ .pop :: rest)) = (t.afterBranch inner).executeAll rest :=
  executeAll_branch_of (executeAll_keeps h t.push).1 rest

/-- The trail of a branch is that of its content, and then that of the rest. -/
theorem trail_branch {inner : List Command} (h : Balanced .push .pop inner) (t : Turtle)
    (rest : List Command) :
    t.trail (.push :: (inner ++ .pop :: rest))
      = t.push.trail inner ++ (t.afterBranch inner).trail rest := by
  have hsplit : t.trail (.push :: (inner ++ .pop :: rest))
      = t.push.trail inner ++ (t.push.executeAll inner).pop.trail rest :=
    trail_append t.push inner (.pop :: rest)
  rw [hsplit, pop_of_branches (executeAll_keeps h t.push).1]
  rfl

/-- Turtles with the same settings and cursor move alike under a command that is no end of a
    branch. -/
theorem execute_alike {command : Command} (hpush : command ≠ .push) (hpop : command ≠ .pop)
    {t t' : Turtle} (hconfig : t.config = t'.config) (hcursor : t.cursor = t'.cursor) :
    (t.execute command).cursor = (t'.execute command).cursor
      ∧ t.mark command = t'.mark command := by
  cases command with
  | push => exact absurd rfl hpush
  | pop => exact absurd rfl hpop
  | _ => simp only [execute, forward, mark, hconfig, hcursor, and_self]

/-- Where balanced commands lead, and along which steps, depends on settings and cursor
    alone. -/
theorem executeAll_alike {commands : List Command} (h : Balanced .push .pop commands)
    {t t' : Turtle} (hconfig : t.config = t'.config) (hcursor : t.cursor = t'.cursor) :
    (t.executeAll commands).cursor = (t'.executeAll commands).cursor
      ∧ t.trail commands = t'.trail commands := by
  induction h generalizing t t' with
  | nil => exact ⟨hcursor, rfl⟩
  | @other command commands hpush hpop _ ih =>
      obtain ⟨hcursor', hmark⟩ := execute_alike hpush hpop hconfig hcursor
      have hconfig' : (t.execute command).config = (t'.execute command).config := by
        rw [config_execute, config_execute, hconfig]
      obtain ⟨hend, htrail⟩ := ih hconfig' hcursor'
      refine ⟨hend, ?_⟩
      show t.mark command ++ _ = t'.mark command ++ _
      rw [hmark, htrail]
  | @branch inner rest hinner _ ihinner ihrest =>
      -- inside the branch the two turtles differ in more open branches than before
      obtain ⟨hend, htrail⟩ := @ihinner t.push t'.push hconfig hcursor
      have hconfig' : (t.afterBranch inner).config = (t'.afterBranch inner).config := by
        show (t.push.executeAll inner).config = (t'.push.executeAll inner).config
        rw [config_executeAll, config_executeAll]
        exact hconfig
      have hcursor' : (t.afterBranch inner).cursor = (t'.afterBranch inner).cursor := by
        simp only [afterBranch, hend, hcursor]
      obtain ⟨hend', htrail'⟩ := ihrest hconfig' hcursor'
      rw [executeAll_branch hinner, executeAll_branch hinner, trail_branch hinner,
        trail_branch hinner, htrail, htrail']
      exact ⟨hend', rfl⟩

/-! ## Lengths and depths -/

/-- A command rescales the step length and changes it in no other way. -/
theorem length_execute (t : Turtle) (command : Command) :
    (t.execute command).cursor.length = rescale t.config.factor t.cursor.length command := by
  cases command with
  | pop =>
      show t.pop.cursor.length = t.cursor.length
      rcases t.pop_cases with ⟨branches, pose, -, hpop⟩ | ⟨-, hpop⟩
      · rw [hpop]
      · rw [hpop]
  | _ => rfl

/-- Branches or not, the step length is rescaled once a scaling command. -/
theorem length_executeAll (t : Turtle) (commands : List Command) :
    (t.executeAll commands).cursor.length
      = commands.foldl (rescale t.config.factor) t.cursor.length := by
  induction commands generalizing t with
  | nil => rfl
  | cons command commands ih =>
      show ((t.execute command).executeAll commands).cursor.length = _
      rw [ih, config_execute, length_execute, List.foldl_cons]

/-- The turtle with a branch of the given depth in its counts. -/
def deepen (t : Turtle) (depth : Nat) : Turtle :=
  { t with stats := { t.stats with maxDepth := max t.stats.maxDepth depth } }

/-- A turtle that has once been deeper obeys a command as it would anyway. -/
theorem execute_deepen (t : Turtle) (depth : Nat) (command : Command) :
    (t.deepen depth).execute command = (t.execute command).deepen depth := by
  cases command with
  | push => simp only [execute, push, deepen, Nat.max_right_comm]
  | pop =>
      show (t.deepen depth).pop = t.pop.deepen depth
      simp only [pop, deepen]
      split <;> rfl
  | _ => rfl

/-- No command reads the greatest depth: it can be raised before or after. -/
theorem executeAll_deepen (t : Turtle) (depth : Nat) (commands : List Command) :
    (t.deepen depth).executeAll commands = (t.executeAll commands).deepen depth := by
  induction commands generalizing t with
  | nil => rfl
  | cons command commands ih =>
      show ((t.deepen depth).execute command).executeAll commands = _
      rw [execute_deepen, ih]
      rfl

/-- The greatest depth never falls by a command. -/
theorem maxDepth_le_execute (t : Turtle) (command : Command) :
    t.stats.maxDepth ≤ (t.execute command).stats.maxDepth := by
  cases command with
  | push => exact Nat.le_max_left _ _
  | pop =>
      have hsame : t.pop.stats.maxDepth = t.stats.maxDepth := by
        rcases t.pop_cases with ⟨branches, pose, -, hpop⟩ | ⟨-, hpop⟩
        · rw [hpop]
        · rw [hpop]
      exact Nat.le_of_eq hsame.symm
  | _ => exact Nat.le_refl _

theorem maxDepth_le_executeAll (t : Turtle) (commands : List Command) :
    t.stats.maxDepth ≤ (t.executeAll commands).stats.maxDepth := by
  induction commands generalizing t with
  | nil => exact Nat.le_refl _
  | cons command commands ih =>
      exact Nat.le_trans (t.maxDepth_le_execute command) (ih (t.execute command))

/-! ## Branches of a word -/

/-- What is left when a branch of the commands has been walked from `t`: `t'` is the
    turtle then. -/
structure Restored (t : Turtle) (commands : List Command) (t' : Turtle) : Prop where
  position : t'.cursor.position = t.cursor.position
  heading : t'.cursor.heading = t.cursor.heading
  branches : t'.branches = t.branches
  unmatchedPops : t'.stats.unmatchedPops = t.stats.unmatchedPops
  /-- Scalings inside the branch have the effect that they have outside. -/
  length : t'.cursor.length = commands.foldl (rescale t.config.factor) t.cursor.length
  /-- What is recorded is what the commands record without a branch. -/
  graph : t'.graph = (t.executeAll commands).graph
  root : t'.root = (t.executeAll commands).root
  forwardSteps : t'.stats.forwardSteps = (t.executeAll commands).stats.forwardSteps

/-- The two turtles are the same but for a greatest depth that the first may have more. -/
structure SameButDeeper (t t' : Turtle) : Prop where
  graph : t.graph = t'.graph
  root : t.root = t'.root
  cursor : t.cursor = t'.cursor
  branches : t.branches = t'.branches
  forwardSteps : t.stats.forwardSteps = t'.stats.forwardSteps
  unmatchedPops : t.stats.unmatchedPops = t'.stats.unmatchedPops
  maxDepth : t'.stats.maxDepth ≤ t.stats.maxDepth

/-- To have been deeper is all that is different about a deepened turtle. -/
theorem deepen_sameButDeeper (t : Turtle) (depth : Nat) : (t.deepen depth).SameButDeeper t where
  graph := rfl
  root := rfl
  cursor := rfl
  branches := rfl
  forwardSteps := rfl
  unmatchedPops := rfl
  maxDepth := Nat.le_max_left _ _

/-- The beginning of a branch makes no difference to the trail of balanced commands after it. -/
theorem push_trail {commands : List Command} (h : Balanced .push .pop commands) (t : Turtle) :
    t.push.trail commands = t.trail commands := by
  have hconfig : t.push.config = t.config := rfl
  have hcursor : t.push.cursor = t.cursor := rfl
  exact (executeAll_alike h hconfig hcursor).2

/-- A branch has the steps of its content. -/
theorem trail_branch_eq {commands : List Command} (h : Balanced .push .pop commands)
    (t : Turtle) : t.trail (.push :: (commands ++ [.pop])) = t.trail commands := by
  rw [trail_branch h, push_trail h]
  exact List.append_nil _

/-- After a balanced branch the turtle is back where it was, with the branch's steps recorded. -/
theorem afterBranch_restored {commands : List Command} (h : Balanced .push .pop commands)
    (t : Turtle) : t.Restored commands (t.afterBranch commands) := by
  have hinside := t.push.executeAll_records commands
  have halone := t.executeAll_records commands
  rw [push_trail h] at hinside
  exact
    { position := rfl
      heading := rfl
      branches := rfl
      unmatchedPops := (executeAll_keeps h t.push).2
      length := t.push.length_executeAll commands
      graph := hinside.graph.trans halone.graph.symm
      root := hinside.root.trans halone.root.symm
      forwardSteps := hinside.forwardSteps.trans halone.forwardSteps.symm }

theorem trail_eq_nil_of_idle {commands : List Command} (h : Idle commands) (t : Turtle) :
    t.trail commands = [] := by
  induction commands generalizing t with
  | nil => rfl
  | cons command commands ih =>
      obtain ⟨⟨hforward, -, -⟩, hrest⟩ := List.forall_mem_cons.mp h
      have hmark : t.mark command = [] := by
        cases command with
        | forward => exact absurd rfl hforward
        | _ => rfl
      show t.mark command ++ (t.execute command).trail commands = []
      rw [hmark, ih hrest, List.nil_append]

/-- A turtle that differs from an earlier one in no more than a greater depth. -/
theorem eq_deepen {t t' : Turtle} (hconfig : t'.config = t.config) (hcursor : t'.cursor = t.cursor)
    (hbranches : t'.branches = t.branches) (hnothing : t.Records t' [])
    (hunmatched : t'.stats.unmatchedPops = t.stats.unmatchedPops)
    (hdepth : t.stats.maxDepth ≤ t'.stats.maxDepth) : t' = t.deepen t'.stats.maxDepth := by
  have hgraph : t'.graph = t.graph := hnothing.graph
  have hroot : t'.root = t.root := hnothing.root.trans (Records.refl t).root.symm
  have hsteps : t'.stats.forwardSteps = t.stats.forwardSteps := hnothing.forwardSteps
  have hstats : t'.stats = { t.stats with maxDepth := max t.stats.maxDepth t'.stats.maxDepth } := by
    calc t'.stats
        = ⟨t'.stats.forwardSteps, t'.stats.maxDepth, t'.stats.unmatchedPops⟩ := rfl
      _ = _ := by rw [hsteps, hunmatched, Nat.max_eq_right hdepth]
  calc t' = ⟨t'.config, t'.cursor, t'.branches, t'.graph, t'.root, t'.stats⟩ := rfl
    _ = t.deepen t'.stats.maxDepth := by
        rw [deepen, ← hstats, hconfig, hcursor, hbranches, hgraph, hroot]

/-- A branch without steps and scalings is only counted. -/
theorem afterBranch_of_idle {commands : List Command} (h : Balanced .push .pop commands)
    (hidle : Idle commands) (t : Turtle) :
    t.afterBranch commands = t.deepen (t.afterBranch commands).stats.maxDepth := by
  have hrestored := afterBranch_restored h t
  have hnothing := t.push.executeAll_records commands
  rw [trail_eq_nil_of_idle hidle] at hnothing
  have hcursor : (t.afterBranch commands).cursor = t.cursor := by
    have hlength := hrestored.length
    rw [hidle.foldl_rescale] at hlength
    calc (t.afterBranch commands).cursor
        = { t.cursor with length := (t.afterBranch commands).cursor.length } := rfl
      _ = t.cursor := by rw [hlength]
  have hdepth : t.stats.maxDepth ≤ (t.afterBranch commands).stats.maxDepth :=
    Nat.le_trans (t.maxDepth_le_execute .push) (t.push.maxDepth_le_executeAll commands)
  refine eq_deepen ?_ hcursor rfl ?_ hrestored.unmatchedPops hdepth
  · exact config_executeAll t.push commands
  · exact ⟨hnothing.graph, hnothing.root, hnothing.forwardSteps⟩

/-! ## Words -/

/-- A branch without steps and scalings can be cut out of a walk: only its depth is lost. -/
theorem run_insert_branch {w : Word} (hw : Balanced '[' ']' w) (hidle : Idle (Command.ofWord w))
    (t : Turtle) (u v : Word) :
    ∃ depth, t.run (u ++ branchOf w ++ v) = (t.run (u ++ v)).deepen depth := by
  have hcommands : Command.ofWord (u ++ branchOf w ++ v)
      = Command.ofWord u
        ++ (.push :: (Command.ofWord w ++ [.pop]) ++ Command.ofWord v) := by
    rw [List.append_assoc, Command.ofWord_append, Command.ofWord_append, Command.ofWord_branchOf]
  have hready : t.ready (u ++ branchOf w ++ v) = t.ready (u ++ v) := by
    rw [ready, ready, hcommands, hidle.branch.nodeQuantum_insert, ← Command.ofWord_append]
  have hbranch : ∀ t : Turtle, t.executeAll (.push :: (Command.ofWord w ++ [.pop]))
      = t.deepen (t.afterBranch (Command.ofWord w)).stats.maxDepth := by
    intro t
    rw [executeAll_branch hw.ofWord]
    exact afterBranch_of_idle hw.ofWord hidle t
  -- the branch is begun by the turtle that has walked `u`
  let begun := (t.ready (u ++ v)).executeAll (Command.ofWord u)
  refine ⟨(begun.afterBranch (Command.ofWord w)).stats.maxDepth, ?_⟩
  rw [run_eq_executeAll, run_eq_executeAll, hready, hcommands, Command.ofWord_append,
    executeAll_append, executeAll_append, hbranch, executeAll_deepen, ← executeAll_append]

/-- **Branches are transparent but for the step length**: whatever the turtle, a branch
    with balanced content gives back its pose and its open branches, leaves no pop without
    a branch, takes the steps of its content and rescales the length as its content does.
    A branch without steps and scalings can therefore be put anywhere into a word: the
    walk is the same, but for a greatest depth that can only be greater. -/
theorem branch_transparent {w : Word} (hw : Balanced '[' ']' w) :
    (∀ t : Turtle,
        t.trail (Command.ofWord (branchOf w)) = t.trail (Command.ofWord w)
          ∧ t.Restored (Command.ofWord w) (t.executeAll (Command.ofWord (branchOf w))))
      ∧ ('F' ∉ w → '>' ∉ w → '<' ∉ w → ∀ (t : Turtle) (u v : Word),
          (t.run (u ++ branchOf w ++ v)).SameButDeeper (t.run (u ++ v))) := by
  constructor
  · intro t
    rw [Command.ofWord_branchOf, executeAll_branch hw.ofWord]
    exact ⟨trail_branch_eq hw.ofWord t, afterBranch_restored hw.ofWord t⟩
  · intro hforward hup hdown t u v
    obtain ⟨depth, hrun⟩ := run_insert_branch hw (idle_of_notMem hforward hup hdown) t u v
    rw [hrun]
    exact deepen_sameButDeeper _ depth

/-- With steps, a scaling in an inner branch and a symbol that is no command; and a branch
    that is put between two steps. -/
theorem branch_transparent_nested :
    Balanced '[' ']' "F>[+F<]X".toList
      ∧ (new {}).Restored (Command.ofWord "F>[+F<]X".toList)
          ((new {}).executeAll (Command.ofWord (branchOf "F>[+F<]X".toList)))
      ∧ Balanced '[' ']' "+[-X]".toList ∧ 'F' ∉ "+[-X]".toList ∧ '>' ∉ "+[-X]".toList
      ∧ '<' ∉ "+[-X]".toList
      ∧ ((new {}).run ("F".toList ++ branchOf "+[-X]".toList ++ "F".toList)).SameButDeeper
          ((new {}).run ("F".toList ++ "F".toList)) := by
  have hsteps : Balanced '[' ']' "F>[+F<]X".toList := by decide
  have hidle : Balanced '[' ']' "+[-X]".toList := by decide
  have hforward : 'F' ∉ "+[-X]".toList := by decide
  have hup : '>' ∉ "+[-X]".toList := by decide
  have hdown : '<' ∉ "+[-X]".toList := by decide
  refine ⟨hsteps, ((branch_transparent hsteps).1 (new {})).2, hidle, hforward, hup, hdown, ?_⟩
  exact (branch_transparent hidle).2 hforward hup hdown (new {}) "F".toList "F".toList

end Turtle

end TurtleGrammar
