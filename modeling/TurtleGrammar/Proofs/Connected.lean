import Mathlib.Logic.Relation
import TurtleGrammar.Proofs.Trail

/-! # Walks are connected — every node is reached from the root

    A walk can jump: the end of a branch takes the turtle back without a step.
    It never jumps to a place it has not been at, though, so the trail hangs
    together, and the graph that is drawn from it can be walked from its root
    to every node along its own edges.

    Nodes that are merged do not get in the way.  An edge leaves from the node
    of its origin, whichever point stands for that node, and it leads to the
    exact point where the next steps start. -/

namespace TurtleGrammar

/-! ## Following edges -/

namespace Graph

/-- An edge leads from the node of `p` to the point `q`. -/
def Leads (g : Graph Float) (p q : Point Float) : Prop :=
  ∃ dests, g.neighbors? p = some dests ∧ q ∈ dests

/-- A finite chain of points leads from `p` to `q`, each next one being a neighbor of the
    one before it. -/
def Reaches (g : Graph Float) : Point Float → Point Float → Prop :=
  Relation.ReflTransGen g.Leads

/-- Every edge that was added can be followed from its own origin. -/
theorem Represents.leads {g : Graph Float} {l : EdgeLog Float} (h : g.Represents l) {e : Step}
    (he : e ∈ l.edges) : g.Leads e.1 e.2 := by
  cases hdests : g.neighbors? e.1 with
  | none => exact absurd rfl ((h.answers.neighbors_none e.1).mp hdests e he)
  | some dests =>
      refine ⟨dests, hdests, ?_⟩
      have hmem : e.2 ∈ l.destsFrom (l.key e.1) :=
        List.mem_map_of_mem (List.mem_filter.mpr ⟨he, decide_eq_true rfl⟩)
      rw [← h.answers.neighbors_some e.1 dests hdests] at hmem
      exact Array.mem_toList_iff.mp hmem

/-- The point of a node is the exact origin of an edge. -/
theorem Represents.exists_origin {g : Graph Float} {l : EdgeLog Float} (h : g.Represents l)
    {p : Point Float} (hp : p ∈ g.points) : ∃ e ∈ l.edges, e.1 = p := by
  have hsome : some p ∈ l.keys.map l.first? := by
    rw [← h.points]
    exact List.mem_map_of_mem hp
  obtain ⟨k, -, hk⟩ := List.mem_map.mp hsome
  obtain ⟨e, he, hfirst⟩ := Option.map_eq_some_iff.mp hk
  exact ⟨e, (List.mem_filter.mp (List.mem_of_mem_head? he)).1, hfirst⟩

/-- Every edge that was added is listed with its exact destination. -/
theorem Represents.mem_edgeList {g : Graph Float} {l : EdgeLog Float} (h : g.Represents l)
    {e : Step} (he : e ∈ l.edges) : e.2 ∈ g.edgeList.map Prod.snd := by
  have hkeyed : (l.key e.1, e.2) ∈ g.edgeList.map fun e => (l.key e.1, e.2) :=
    h.edgeList_perm.mem_iff.mpr (List.mem_map_of_mem he)
  obtain ⟨e', he', heq⟩ := List.mem_map.mp hkeyed
  exact List.mem_map.mpr ⟨e', he', (Prod.mk.inj heq).2⟩

end Graph

namespace Turtle

/-! ## What hangs together -/

/-- The origin of a step is one of the places or the destination of a step before it. -/
theorem Connected.origin {places : List (Point Float)} {before after : List Step} {e : Step}
    (h : Connected places (before ++ e :: after)) :
    e.1 ∈ places ∨ e.1 ∈ before.map Prod.snd := by
  obtain ⟨-, hmem, -⟩ := connected_append.mp h
  rcases List.mem_append.mp hmem with hbefore | hplace
  · exact Or.inr (List.mem_reverse.mp hbefore)
  · exact Or.inl hplace

/-- From a point that reaches all places, the origins of all steps are reached along
    edges. -/
theorem Connected.reaches {g : Graph Float} {r : Point Float} {places : List (Point Float)}
    {steps : List Step} (h : Connected places steps) (hleads : ∀ e ∈ steps, g.Leads e.1 e.2)
    (hplaces : ∀ p ∈ places, g.Reaches r p) : ∀ e ∈ steps, g.Reaches r e.1 := by
  induction steps generalizing places with
  | nil => exact nofun
  | cons e steps ih =>
      obtain ⟨horigin, hrest⟩ := h
      obtain ⟨hlead, hleads⟩ := List.forall_mem_cons.mp hleads
      have hfrom : g.Reaches r e.1 := hplaces e.1 horigin
      have hto : g.Reaches r e.2 := hfrom.tail hlead
      refine List.forall_mem_cons.mpr ⟨hfrom, ?_⟩
      exact ih hrest hleads (List.forall_mem_cons.mpr ⟨hto, hplaces⟩)

/-! ## Walks -/

theorem ready_standsOn (t : Turtle) (w : Word) : (t.ready w).StandsOn [t.config.position] where
  position := List.mem_singleton_self _
  branches := by
    intro pose hpose
    exact absurd hpose (Array.not_mem_empty pose)

/-- Every step of a walk starts where the walk started or where an earlier step led. -/
theorem trailOf_connected (t : Turtle) (w : Word) :
    Connected [t.config.position] (t.trailOf w) :=
  (t.ready_standsOn w).trail_connected (Command.ofWord w)

/-- The graph of a walk represents the log of the walk's steps. -/
theorem run_represents (t : Turtle) (w : Word) :
    (t.run w).graph.Represents ⟨nodeQuantum t.config (Command.ofWord w), t.trailOf w⟩ := by
  rw [(t.run_records w).graph]
  exact (Graph.withQuantum_represents _).draw (t.trailOf w)

/-- A walk with steps has its root where it started. -/
theorem root_run_of_mem {t : Turtle} {w : Word} {e : Step} (he : e ∈ t.trailOf w) :
    (t.run w).root = some t.config.position := by
  have hroot := (t.run_records w).root
  have hconnected := t.trailOf_connected w
  cases hsteps : t.trailOf w with
  | nil =>
      rw [hsteps] at he
      exact absurd he List.not_mem_nil
  | cons first rest =>
      rw [hsteps] at hroot hconnected
      rw [hroot, ← List.mem_singleton.mp hconnected.1]
      rfl

/-- **Walks are connected**: a step starts where the walk started or where an earlier step
    ended, to the bit, and the same is true of every node.  Every node is reached from the
    root along the edges of the graph, and it is its very point that is reached. -/
theorem run_connected (t : Turtle) (w : Word) :
    (t.run w).graph
        = (Graph.withQuantum (nodeQuantum t.config (Command.ofWord w))).draw (t.trailOf w)
      ∧ (∀ before e after, t.trailOf w = before ++ e :: after →
          e.1 = t.config.position ∨ e.1 ∈ before.map Prod.snd)
      ∧ (∀ p ∈ (t.run w).graph.points,
          p = t.config.position ∨ p ∈ (t.run w).edgeList.map Prod.snd)
      ∧ ∀ p ∈ (t.run w).graph.points,
          ∃ r, (t.run w).root = some r ∧ (t.run w).graph.Reaches r p := by
  have hrep := t.run_represents w
  have hconnected := t.trailOf_connected w
  have horigin : ∀ before e after, t.trailOf w = before ++ e :: after →
      e.1 = t.config.position ∨ e.1 ∈ before.map Prod.snd := by
    intro before e after hsplit
    rw [hsplit] at hconnected
    exact hconnected.origin.imp_left List.mem_singleton.mp
  have hpoints : ∀ p ∈ (t.run w).graph.points, ∃ e ∈ t.trailOf w, e.1 = p :=
    fun p hp => hrep.exists_origin hp
  refine ⟨(t.run_records w).graph, horigin, ?_, ?_⟩
  · -- the step that first made `p` a node starts there, and starts are traced back along the trail
    intro p hp
    obtain ⟨e, he, rfl⟩ := hpoints p hp
    obtain ⟨before, after, hsplit⟩ := List.append_of_mem he
    refine (horigin before e after hsplit).imp_right ?_
    intro hbefore
    obtain ⟨e', he', hdest⟩ := List.mem_map.mp hbefore
    have hmem : e' ∈ t.trailOf w := by
      rw [hsplit]
      exact List.mem_append_left _ he'
    rw [← hdest]
    exact hrep.mem_edgeList hmem
  · intro p hp
    obtain ⟨e, he, rfl⟩ := hpoints p hp
    -- some step was drawn, so the root is where the walk started
    refine ⟨t.config.position, root_run_of_mem he, ?_⟩
    refine hconnected.reaches (fun e he => hrep.leads he) ?_ e he
    exact List.forall_mem_singleton.mpr .refl

end Turtle

end TurtleGrammar
