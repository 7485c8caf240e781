import TurtleGrammar.Proofs.Tallies

/-! # Roots — where the graph of a walk begins

    Before its first step a turtle can turn, rescale, begin branches and end
    them, and it still stands where it started: the end of a branch leads to no
    place that it has not been at.  So the first step starts at the configured
    position, and that is the root.

    A graph keeps its nodes in the order in which they first appeared, whatever
    is merged later.  The edge that was added first is therefore the first of
    its list, to the bit (`Represents.head?_edgeList`), and the origin of that
    edge is its first point (`Represents.head?_points`). -/

namespace TurtleGrammar

/-! ## The first edge -/

section FirstEdge

variable {α : Type} [DecidableEq α]
variable [Scalar α] [LT α] [DecidableLT α] [OfNat α 0] [Add α] [Div α] [Neg α]

namespace EdgeLog

/-- The first key is that of the first edge's origin. -/
theorem head?_keys {l : EdgeLog α} {e : Point α × Point α} (h : l.edges.head? = some e) :
    l.keys.head? = some (l.key e.1) := by
  obtain ⟨edges, hedges⟩ := List.head?_eq_some_iff.mp h
  rw [keys, hedges, List.map_cons, List.eraseDups_cons, List.head?_cons]

/-- No edge from the same node stands before the first edge. -/
theorem head?_edgesFrom {l : EdgeLog α} {e : Point α × Point α} (h : l.edges.head? = some e) :
    (l.edgesFrom (l.key e.1)).head? = some e := by
  obtain ⟨edges, hedges⟩ := List.head?_eq_some_iff.mp h
  have hkey : decide (l.key e.1 = l.key e.1) = true := decide_eq_true rfl
  rw [edgesFrom, hedges, List.filter_cons, if_pos hkey, List.head?_cons]

end EdgeLog

namespace Graph

variable [Hashable α]

/-- The first point is the origin of the edge that was added first. -/
theorem Represents.head?_points {g : Graph α} {l : EdgeLog α} (h : g.Represents l)
    {e : Point α × Point α} (he : l.edges.head? = some e) : g.points.head? = some e.1 := by
  have hfirst : g.points.head?.map some = l.keys.head?.map l.first? := by
    rw [← List.head?_map, ← List.head?_map, h.points]
  rw [EdgeLog.head?_keys he, Option.map_some, EdgeLog.first?, EdgeLog.head?_edgesFrom he] at hfirst
  obtain ⟨p, hp, hpoint⟩ := Option.map_eq_some_iff.mp hfirst
  rw [hp, hpoint]
  rfl

/-- The first edge of the list is the edge that was added first. -/
theorem Represents.head?_edgeList {g : Graph α} {l : EdgeLog α} (h : g.Represents l)
    {e : Point α × Point α} (he : l.edges.head? = some e) : g.edgeList.head? = some e := by
  obtain ⟨points, hpoints⟩ := List.head?_eq_some_iff.mp (h.head?_points he)
  have hdest : (l.destsFrom (l.key e.1)).head? = some e.2 := by
    rw [EdgeLog.destsFrom, List.head?_map, EdgeLog.head?_edgesFrom he, Option.map_some]
  obtain ⟨dests, hdests⟩ := List.head?_eq_some_iff.mp hdest
  rw [h.edgeList, hpoints, List.flatMap_cons, hdests]
  rfl

/-- A node is found by the origin of any of its edges. -/
theorem Represents.contains_origin {g : Graph α} {l : EdgeLog α} (h : g.Represents l)
    {e : Point α × Point α} (he : e ∈ l.edges) : g.contains e.1 = true := by
  rw [h.contains_eq, Option.isSome_iff_ne_none]
  intro hnone
  exact (h.answers.neighbors_none e.1).mp hnone e he rfl

end Graph

end FirstEdge

/-! ## Walks -/

namespace Turtle

theorem trailOf_eq_nil (t : Turtle) (w : Word) : t.trailOf w = [] ↔ 'F' ∉ w := by
  rw [← List.length_eq_zero_iff, length_trailOf, List.count_eq_zero]

/-- The first step starts at the configured position. -/
theorem head?_trailOf {t : Turtle} {w : Word} {e : Step} (h : (t.trailOf w).head? = some e) :
    e.1 = t.config.position := by
  obtain ⟨steps, hsteps⟩ := List.head?_eq_some_iff.mp h
  have hconnected := t.trailOf_connected w
  rw [hsteps] at hconnected
  exact List.mem_singleton.mp hconnected.1

/-- **The root**: a walk has one exactly when its word has a step.  Whatever the walk does
    before that step, its root is the position that it was configured to start at, to the
    bit, and the graph begins there: with its first node and with its first edge. -/
theorem run_rooted (t : Turtle) (w : Word) :
    ((t.run w).root = none ↔ 'F' ∉ w)
      ∧ ('F' ∈ w →
          (t.run w).root = some t.config.position
            ∧ (t.run w).graph.points.head? = some t.config.position
            ∧ (∃ dest, (t.run w).edgeList.head? = some (t.config.position, dest))
            ∧ (t.run w).graph.contains t.config.position = true) := by
  have hrep := t.run_represents w
  have hnone : 'F' ∉ w → (t.run w).root = none := by
    intro hF
    have hroot := (t.run_records w).root
    rw [(t.trailOf_eq_nil w).mpr hF] at hroot
    exact hroot
  -- the first step drawn is where root, first node and first edge all come from
  have hsome : 'F' ∈ w → ∃ e, (t.trailOf w).head? = some e := by
    intro hF
    have hne : t.trailOf w ≠ [] := (t.trailOf_eq_nil w).not_left.mpr hF
    exact ⟨_, List.head?_eq_some_head hne⟩
  refine ⟨⟨?_, hnone⟩, ?_⟩
  · intro hroot hF
    obtain ⟨e, he⟩ := hsome hF
    rw [root_run_of_mem (List.mem_of_mem_head? he)] at hroot
    cases hroot
  · intro hF
    obtain ⟨e, he⟩ := hsome hF
    have hstart := head?_trailOf he
    have hmem : e ∈ t.trailOf w := List.mem_of_mem_head? he
    rw [← hstart]
    refine ⟨?_, hrep.head?_points he, ⟨e.2, hrep.head?_edgeList he⟩, hrep.contains_origin hmem⟩
    rw [root_run_of_mem hmem, hstart]

/-- Before the first step there are an end without a beginning, a branch with turns and
    scalings, and one that is still open. -/
theorem run_rooted_late :
    let t := new { position := ⟨2, 3⟩, turn := 0.5, factor := 2 }
    'F' ∈ "][->]<[+F]F".toList
      ∧ (t.run "][->]<[+F]F".toList).root = some ⟨2, 3⟩
      ∧ (t.run "][->]<[+F]F".toList).graph.points.head? = some ⟨2, 3⟩ := by
  intro t
  have hF : 'F' ∈ "][->]<[+F]F".toList := by decide
  obtain ⟨hroot, hpoint, -⟩ := (t.run_rooted "][->]<[+F]F".toList).2 hF
  exact ⟨hF, hroot, hpoint⟩

end Turtle

end TurtleGrammar
