import Mathlib.Data.List.Nodup
import TurtleGrammar.Proofs.Connected
import TurtleGrammar.Proofs.Nesting

/-! # Siblings — branches that begin at the same place

    Two branches that follow each other begin with the same pose.  When neither
    of them rescales steps, they begin with the same length as well, and the
    second has no way of knowing whether it is the first: it takes the steps
    that it would take in its place.

    Exchanging such branches therefore exchanges two stretches of the trail and
    leaves the rest of the walk alone.  A graph that is drawn from the same
    steps in another order is the same but for an order: that of its nodes, and
    that of the destinations within a node (`Graph.Reordered`). -/

namespace TurtleGrammar

/-! ## Steps in another order -/

section Reordering

variable {α : Type} [DecidableEq α]
variable [Scalar α] [LT α] [DecidableLT α] [OfNat α 0] [Add α] [Div α] [Neg α]

/-- Logs of the same edges in another order have the same keys. -/
theorem EdgeLog.keys_perm {l l' : EdgeLog α} (hquantum : l.quantum = l'.quantum)
    (hedges : l.edges.Perm l'.edges) : l.keys.Perm l'.keys := by
  refine (List.perm_ext_iff_of_nodup l.nodup_keys l'.nodup_keys).mpr ?_
  intro k
  simp only [mem_keys, key, hquantum, hedges.mem_iff]

theorem EdgeLog.destsFrom_perm {l l' : EdgeLog α} (hquantum : l.quantum = l'.quantum)
    (hedges : l.edges.Perm l'.edges) (k : NodeKey α) : (l.destsFrom k).Perm (l'.destsFrom k) := by
  simp only [destsFrom, edgesFrom, key, hquantum]
  exact (hedges.filter _).map Prod.snd

variable [Hashable α]

/-- The two graphs have the same nodes and the same edges, in whatever order.  A point that
    stands for a node may be another one of the same key. -/
structure Graph.Reordered (g g' : Graph α) : Prop where
  quantum : g.quantum = g'.quantum
  nodeCount : g.nodeCount = g'.nodeCount
  edgeCount : g.edgeCount = g'.edgeCount
  contains : ∀ p, g.contains p = g'.contains p
  /-- A point has neighbors in both graphs or in neither. -/
  neighbors : ∀ p, Option.Rel (fun dests dests' => dests.toList.Perm dests'.toList)
    (g.neighbors? p) (g'.neighbors? p)

/-- Graphs of the same edges are the same but for an order. -/
theorem Graph.Represents.reordered {g g' : Graph α} {l l' : EdgeLog α} (h : g.Represents l)
    (h' : g'.Represents l') (hquantum : l.quantum = l'.quantum)
    (hedges : l.edges.Perm l'.edges) : g.Reordered g' := by
  have hkey : ∀ p, l.key p = l'.key p := by
    intro p
    rw [EdgeLog.key, EdgeLog.key, hquantum]
  have hnone : ∀ p, g.neighbors? p = none ↔ g'.neighbors? p = none := by
    intro p
    rw [h.answers.neighbors_none, h'.answers.neighbors_none]
    simp only [hkey, hedges.mem_iff]
  refine ⟨?_, ?_, ?_, ?_, ?_⟩
  · rw [h.quantum, h'.quantum, hquantum]
  · rw [h.answers.nodeCount, h'.answers.nodeCount]
    exact (EdgeLog.keys_perm hquantum hedges).length_eq
  · rw [h.edgeCount, h'.edgeCount]
    exact hedges.length_eq
  · intro p
    rw [h.contains_eq, h'.contains_eq, Bool.eq_iff_iff, Option.isSome_iff_ne_none,
      Option.isSome_iff_ne_none, ne_eq, ne_eq, hnone]
  · intro p
    -- both know the point or neither does, and its destinations are a selection from the logs
    cases hdests : g.neighbors? p with
    | none =>
        rw [(hnone p).mp hdests]
        exact .none
    | some dests =>
        cases hdests' : g'.neighbors? p with
        | none =>
            rw [(hnone p).mpr hdests'] at hdests
            cases hdests
        | some dests' =>
            refine .some ?_
            rw [h.answers.neighbors_some p dests hdests, h'.answers.neighbors_some p dests' hdests',
              hkey]
            exact EdgeLog.destsFrom_perm hquantum hedges _

end Reordering

/-! ## Branches that keep the length -/

/-- Commands that keep the length take all their steps with it. -/
theorem Unscaled.stepLengths_eq {commands : List Command} (h : Unscaled commands)
    (factor length : Float) :
    stepLengths factor length commands = List.replicate (commands.count .forward) length := by
  induction commands with
  | nil => rfl
  | cons command commands ih =>
      obtain ⟨⟨hup, hdown⟩, hrest⟩ := List.forall_mem_cons.mp h
      cases command with
      | forward =>
          rw [List.count_cons_self, List.replicate_succ, ← ih hrest]
          rfl
      | scaleUp => exact absurd rfl hup
      | scaleDown => exact absurd rfl hdown
      | _ => exact ih hrest

theorem Unscaled.branch {commands : List Command} (h : Unscaled commands) :
    Unscaled (.push :: (commands ++ [.pop])) := by
  refine List.forall_mem_cons.mpr ⟨by decide, ?_⟩
  exact List.forall_mem_append.mpr ⟨h, List.forall_mem_singleton.mpr (by decide)⟩

/-- The grid takes no notice of the order of parts that keep the length. -/
theorem Unscaled.nodeQuantum_swap {first second : List Command} (h : Unscaled first)
    (h' : Unscaled second) (config : TurtleConfig) (before after : List Command) :
    nodeQuantum config (before ++ (first ++ (second ++ after)))
      = nodeQuantum config (before ++ (second ++ (first ++ after))) := by
  have hsame : ∀ length, stepLengths config.factor length (first ++ (second ++ after))
      = stepLengths config.factor length (second ++ (first ++ after)) := by
    intro length
    simp only [stepLengths_append, h.stepLengths_eq, h'.stepLengths_eq, h.foldl_rescale,
      h'.foldl_rescale]
    rw [← List.append_assoc, ← List.append_assoc, List.replicate_append_replicate,
      List.replicate_append_replicate, Nat.add_comm]
  rw [nodeQuantum, nodeQuantum, stepLengths_append _ _ before, stepLengths_append _ _ before, hsame]

namespace Turtle

/-- Two turtles that go on alike: whatever the one has recorded before and the other has
    not, their next steps are the same. -/
structure Abreast (t t' : Turtle) : Prop where
  config : t.config = t'.config
  cursor : t.cursor = t'.cursor
  branches : t.branches = t'.branches
  unmatchedPops : t.stats.unmatchedPops = t'.stats.unmatchedPops

theorem Abreast.symm {t t' : Turtle} (h : t.Abreast t') : t'.Abreast t where
  config := h.config.symm
  cursor := h.cursor.symm
  branches := h.branches.symm
  unmatchedPops := h.unmatchedPops.symm

theorem Abreast.trans {t t' t'' : Turtle} (h : t.Abreast t') (h' : t'.Abreast t'') :
    t.Abreast t'' where
  config := h.config.trans h'.config
  cursor := h.cursor.trans h'.cursor
  branches := h.branches.trans h'.branches
  unmatchedPops := h.unmatchedPops.trans h'.unmatchedPops

/-- Turtles abreast of each other take the same step. -/
theorem Abreast.mark {t t' : Turtle} (h : t.Abreast t') (command : Command) :
    t.mark command = t'.mark command := by
  cases command with
  | forward => rw [Turtle.mark, Turtle.mark, h.cursor]
  | _ => rfl

/-- **Step lemma**: turtles that go on alike obey a command alike. -/
theorem Abreast.execute {t t' : Turtle} (h : t.Abreast t') (command : Command) :
    (t.execute command).Abreast (t'.execute command) := by
  have hcursor := h.cursor
  have hconfig := h.config
  cases command with
  | pop =>
      show t.pop.Abreast t'.pop
      rw [pop, pop, h.branches]
      cases t'.branches.back? with
      | none => exact ⟨hconfig, hcursor, rfl, congrArg (· + 1) h.unmatchedPops⟩
      | some pose => exact ⟨hconfig, by rw [hcursor], rfl, h.unmatchedPops⟩
  | push =>
      refine ⟨hconfig, hcursor, ?_, h.unmatchedPops⟩
      simp only [Turtle.execute, push, hcursor, h.branches]
  | _ =>
      refine ⟨hconfig, ?_, h.branches, h.unmatchedPops⟩
      simp only [Turtle.execute, forward, hcursor, hconfig]

/-- **Run lemma**: they obey all further commands alike, along the same steps. -/
theorem Abreast.executeAll {t t' : Turtle} (h : t.Abreast t') (commands : List Command) :
    (t.executeAll commands).Abreast (t'.executeAll commands)
      ∧ t.trail commands = t'.trail commands := by
  induction commands generalizing t t' with
  | nil => exact ⟨h, rfl⟩
  | cons command commands ih =>
      obtain ⟨hend, htrail⟩ := ih (h.execute command)
      refine ⟨hend, ?_⟩
      show t.mark command ++ _ = t'.mark command ++ _
      rw [h.mark, htrail]

/-- After a branch that keeps the length a turtle goes on as it would have gone on before. -/
theorem afterBranch_abreast {commands : List Command} (h : Balanced .push .pop commands)
    (hunscaled : Unscaled commands) (t : Turtle) : (t.afterBranch commands).Abreast t where
  config := config_executeAll t.push commands
  cursor := by
    have hlength := (afterBranch_restored h t).length
    rw [hunscaled.foldl_rescale] at hlength
    calc (t.afterBranch commands).cursor
        = { t.cursor with length := (t.afterBranch commands).cursor.length } := rfl
      _ = t.cursor := by rw [hlength]
  branches := rfl
  unmatchedPops := (afterBranch_restored h t).unmatchedPops

/-- What follows a branch that keeps the length is walked as without the branch, whose steps
    come first. -/
theorem executeAll_after_branch {commands : List Command} (h : Balanced .push .pop commands)
    (hunscaled : Unscaled commands) (t : Turtle) (rest : List Command) :
    (t.executeAll (.push :: (commands ++ [.pop]) ++ rest)).Abreast (t.executeAll rest)
      ∧ t.trail (.push :: (commands ++ [.pop]) ++ rest) = t.trail commands ++ t.trail rest := by
  have hbranch : t.executeAll (.push :: (commands ++ [.pop])) = t.afterBranch commands :=
    executeAll_branch h t []
  obtain ⟨hend, htrail⟩ := (afterBranch_abreast h hunscaled t).executeAll rest
  rw [executeAll_append, trail_append, hbranch, trail_branch_eq h, htrail]
  exact ⟨hend, rfl⟩

/-! ## Exchanging siblings -/

/-- The two turtles are the same but for the order in which their steps were recorded. -/
structure SameButReordered (t t' : Turtle) : Prop where
  cursor : t.cursor = t'.cursor
  branches : t.branches = t'.branches
  root : t.root = t'.root
  stats : t.stats = t'.stats
  graph : t.graph.Reordered t'.graph

/-- The root does not depend on the order of the steps behind it, as all walks start in one
    place. -/
theorem root_run_perm {t : Turtle} {w w' : Word} (h : (t.trailOf w).Perm (t.trailOf w')) :
    (t.run w).root = (t.run w').root := by
  cases hsteps : t.trailOf w with
  | nil =>
      have hsteps' : t.trailOf w' = [] := by
        rw [hsteps] at h
        exact h.nil_eq.symm
      rw [(t.run_records w).root, (t.run_records w').root, hsteps, hsteps']
      rfl
  | cons e steps =>
      have he : e ∈ t.trailOf w := by
        rw [hsteps]
        exact List.mem_cons_self
      rw [root_run_of_mem he, root_run_of_mem (h.mem_iff.mp he)]

/-- Balanced words side by side can be swapped without any effect on the nesting. -/
theorem nesting_swap {a b : Word} (ha : Balanced '[' ']' a) (hb : Balanced '[' ']' b)
    (u v : Word) : nesting (u ++ (a ++ (b ++ v))) = nesting (u ++ (b ++ (a ++ v))) := by
  have hne : '[' ≠ ']' := by decide
  refine deepest_append_congr ?_ 0 u
  intro depth
  rw [ha.deepest_append hne, hb.deepest_append hne, hb.deepest_append hne, ha.deepest_append hne]
  exact Nat.max_left_comm _ _ _

/-- The commands of a word with two branches that follow each other. -/
theorem ofWord_siblings (a b u v : Word) :
    Command.ofWord (u ++ branchOf a ++ branchOf b ++ v)
      = Command.ofWord u
        ++ (.push :: (Command.ofWord a ++ [.pop])
          ++ (.push :: (Command.ofWord b ++ [.pop]) ++ Command.ofWord v)) := by
  rw [List.append_assoc, List.append_assoc, Command.ofWord_append, Command.ofWord_append,
    Command.ofWord_append, Command.ofWord_branchOf, Command.ofWord_branchOf]

section Words

variable {a b : Word} (ha : Balanced '[' ']' a) (hb : Balanced '[' ']' b)
variable (haunscaled : Unscaled (Command.ofWord a)) (hbunscaled : Unscaled (Command.ofWord b))
include ha hb haunscaled hbunscaled

/-- A walk takes the steps of both branches from where the first one begins, and goes on from
    there. -/
theorem run_siblings (t : Turtle) (u v : Word) :
    let w := u ++ branchOf a ++ branchOf b ++ v
    let begun := (t.ready w).executeAll (Command.ofWord u)
    (t.run w).Abreast (begun.executeAll (Command.ofWord v))
      ∧ t.trailOf w
        = (t.ready w).trail (Command.ofWord u)
          ++ (begun.trail (Command.ofWord a)
            ++ (begun.trail (Command.ofWord b) ++ begun.trail (Command.ofWord v))) := by
  intro w begun
  obtain ⟨hfirst, hfirsttrail⟩ := executeAll_after_branch ha.ofWord haunscaled begun
    (.push :: (Command.ofWord b ++ [.pop]) ++ Command.ofWord v)
  obtain ⟨hsecond, hsecondtrail⟩ := executeAll_after_branch hb.ofWord hbunscaled begun
    (Command.ofWord v)
  constructor
  · rw [run_eq_executeAll, ofWord_siblings, executeAll_append]
    exact hfirst.trans hsecond
  · rw [trailOf, ofWord_siblings, trail_append, hfirsttrail, hsecondtrail]

omit ha hb in
/-- Swapped branches make the turtle ready with the same grid. -/
theorem ready_siblings (t : Turtle) (u v : Word) :
    t.ready (u ++ branchOf a ++ branchOf b ++ v)
      = t.ready (u ++ branchOf b ++ branchOf a ++ v) := by
  rw [ready, ready, ofWord_siblings, ofWord_siblings,
    haunscaled.branch.nodeQuantum_swap hbunscaled.branch]

end Words

/-- **Sibling branches commute**: two branches that follow each other and do not rescale
    steps can be exchanged, whatever comes before and after them.  The walk takes the same
    steps in another order, ends in the same way and counts the same, and its graph on the
    same grid has the same nodes, each with the same destinations in some order. -/
theorem sibling_branches_commute {a b : Word} (ha : Balanced '[' ']' a) (hb : Balanced '[' ']' b)
    (haup : '>' ∉ a) (hadown : '<' ∉ a) (hbup : '>' ∉ b) (hbdown : '<' ∉ b) (t : Turtle)
    (u v : Word) :
    let w := u ++ branchOf a ++ branchOf b ++ v
    let w' := u ++ branchOf b ++ branchOf a ++ v
    (t.trailOf w).Perm (t.trailOf w') ∧ (t.run w).SameButReordered (t.run w') := by
  intro w w'
  have haunscaled := unscaled_of_notMem haup hadown
  have hbunscaled := unscaled_of_notMem hbup hbdown
  obtain ⟨hend, htrail⟩ := run_siblings ha hb haunscaled hbunscaled t u v
  obtain ⟨hend', htrail'⟩ := run_siblings hb ha hbunscaled haunscaled t u v
  rw [← ready_siblings haunscaled hbunscaled t u v] at hend' htrail'
  have hsteps : (t.trailOf w).Perm (t.trailOf w') := by
    rw [htrail, htrail']
    exact (List.perm_append_comm_assoc _ _ _).append_left _
  -- either order ends abreast of the turtle that walks neither branch
  have habreast : (t.run w).Abreast (t.run w') := hend.trans hend'.symm
  -- the branches do not scale, so exchanging them permutes the lengths that set the grid
  have hquantum : nodeQuantum t.config (Command.ofWord w)
      = nodeQuantum t.config (Command.ofWord w') := by
    rw [ofWord_siblings, ofWord_siblings, haunscaled.branch.nodeQuantum_swap hbunscaled.branch]
  have hforward : (t.run w).stats.forwardSteps = (t.run w').stats.forwardSteps := by
    rw [(t.run_records w).forwardSteps, (t.run_records w').forwardSteps, hsteps.length_eq]
    rfl
  have hdepth : (t.run w).stats.maxDepth = (t.run w').stats.maxDepth := by
    rw [maxDepth_run, maxDepth_run]
    simp only [w, w', List.append_assoc]
    exact nesting_swap ha.branchOf hb.branchOf u v
  refine ⟨hsteps, habreast.cursor, habreast.branches, root_run_perm hsteps, ?_, ?_⟩
  · calc (t.run w).stats
        = ⟨(t.run w).stats.forwardSteps, (t.run w).stats.maxDepth,
            (t.run w).stats.unmatchedPops⟩ := rfl
      _ = (t.run w').stats := by rw [hforward, hdepth, habreast.unmatchedPops]
  · exact (t.run_represents w).reordered (t.run_represents w') hquantum hsteps

/-- With steps in both branches, a branch in one of them, and the end of a branch that was
    never begun. -/
theorem sibling_branches_commute_nested :
    Balanced '[' ']' "+F[-F]X".toList ∧ Balanced '[' ']' "FF".toList
      ∧ '>' ∉ "+F[-F]X".toList ∧ '<' ∉ "+F[-F]X".toList ∧ '>' ∉ "FF".toList ∧ '<' ∉ "FF".toList
      ∧ ((new {}).run (">F".toList ++ branchOf "+F[-F]X".toList ++ branchOf "FF".toList
            ++ "]F".toList)).SameButReordered
          ((new {}).run (">F".toList ++ branchOf "FF".toList ++ branchOf "+F[-F]X".toList
            ++ "]F".toList)) := by
  have ha : Balanced '[' ']' "+F[-F]X".toList := by decide
  have hb : Balanced '[' ']' "FF".toList := by decide
  have haup : '>' ∉ "+F[-F]X".toList := by decide
  have hadown : '<' ∉ "+F[-F]X".toList := by decide
  have hbup : '>' ∉ "FF".toList := by decide
  have hbdown : '<' ∉ "FF".toList := by decide
  obtain ⟨-, hsame⟩ := sibling_branches_commute ha hb haup hadown hbup hbdown (new {}) ">F".toList
    "]F".toList
  exact ⟨ha, hb, haup, hadown, hbup, hbdown, hsame⟩

end Turtle

end TurtleGrammar
