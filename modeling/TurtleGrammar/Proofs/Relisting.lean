import Mathlib.Data.List.Nodup
import TurtleGrammar.Proofs.EdgeLog

/-! # Relisting — a graph is the list of its edges

    The list of a graph's edges names the points that stand for the nodes, and
    not the origins that were given.  Nor does it keep the order in which the
    edges arrived.  Neither is missed when a graph is built anew from its list:

    - **What is grouped stays grouped**: keys that stand in one block each are
      found block by block, and every block whole (`eraseDups_groups`,
      `filter_groups`).
    - **A graph represents its own list** (`Graph.Represents.relisted`): the point
      of a node has the key of the node, and no node is without an edge.
    - **A log has one graph** (`Graph.Represents.unique`), so the graph of the list
      is the graph that was listed. -/

namespace TurtleGrammar

/-! ## Grouped lists -/

section Groups

variable {ι κ β : Type} [DecidableEq κ] {f : β → κ} {key : ι → κ} {group : ι → List β}

/-- Of groups with different keys the key of one selects its group. -/
theorem filter_groups {ns : List ι} (hkey : ∀ n ∈ ns, ∀ x ∈ group n, f x = key n)
    (hnodup : (ns.map key).Nodup) {n : ι} (hn : n ∈ ns) :
    (ns.flatMap group).filter (f · = key n) = group n := by
  induction ns with
  | nil => exact absurd hn List.not_mem_nil
  | cons m ns ih =>
      obtain ⟨hm, hrest⟩ := List.forall_mem_cons.mp hkey
      rw [List.map_cons, List.nodup_cons] at hnodup
      obtain ⟨hnew, hnodup⟩ := hnodup
      rw [List.flatMap_cons, List.filter_append]
      -- the group looked for comes first, and no later group has its key, or it comes later
      rcases List.mem_cons.mp hn with rfl | hn
      · have hall : (group n).filter (f · = key n) = group n :=
          List.filter_eq_self.mpr fun x hx => decide_eq_true (hm x hx)
        have hnone : (ns.flatMap group).filter (f · = key n) = [] := by
          refine List.filter_eq_nil_iff.mpr ?_
          intro x hx hkx
          obtain ⟨m, hmem, hxm⟩ := List.mem_flatMap.mp hx
          have hsame : key m = key n := (hrest m hmem x hxm).symm.trans (of_decide_eq_true hkx)
          exact hnew (hsame ▸ List.mem_map_of_mem hmem)
        rw [hall, hnone, List.append_nil]
      · have hnone : (group m).filter (f · = key n) = [] := by
          refine List.filter_eq_nil_iff.mpr ?_
          intro x hx hkx
          have hsame : key m = key n := (hm x hx).symm.trans (of_decide_eq_true hkx)
          exact hnew (hsame ▸ List.mem_map_of_mem hn)
        rw [hnone, List.nil_append]
        exact ih hrest hnodup hn

/-- Groups with different keys, none of them empty, first show their keys in the order of
    the groups. -/
theorem eraseDups_groups {ns : List ι} (hkey : ∀ n ∈ ns, ∀ x ∈ group n, f x = key n)
    (hnodup : (ns.map key).Nodup) (hne : ∀ n ∈ ns, group n ≠ []) :
    ((ns.flatMap group).map f).eraseDups = ns.map key := by
  induction ns with
  | nil => rfl
  | cons m ns ih =>
      obtain ⟨hm, hrest⟩ := List.forall_mem_cons.mp hkey
      obtain ⟨hnem, hnerest⟩ := List.forall_mem_cons.mp hne
      rw [List.map_cons, List.nodup_cons] at hnodup
      obtain ⟨hnew, hnodup⟩ := hnodup
      obtain ⟨x, xs, hgroup⟩ := List.exists_cons_of_ne_nil hnem
      rw [hgroup] at hm
      obtain ⟨hx, hxs⟩ := List.forall_mem_cons.mp hm
      -- behind the first of its group, nothing but the later groups is left
      have hsame : (xs.map f).filter (fun k => !k == f x) = [] := by
        refine List.filter_eq_nil_iff.mpr (List.forall_mem_map.mpr ?_)
        intro y hy
        simp [hx, hxs y hy]
      have hothers : ((ns.flatMap group).map f).filter (fun k => !k == f x)
          = (ns.flatMap group).map f := by
        refine List.filter_eq_self.mpr (List.forall_mem_map.mpr ?_)
        intro y hy
        obtain ⟨n, hn, hyn⟩ := List.mem_flatMap.mp hy
        have hmem : f y ∈ ns.map key := hrest n hn y hyn ▸ List.mem_map_of_mem hn
        simpa [hx] using ne_of_mem_of_not_mem hmem hnew
      rw [List.flatMap_cons, hgroup, List.cons_append, List.map_cons, List.map_append,
        List.eraseDups_cons, List.filter_append, hsame, List.nil_append, hothers,
        ih hrest hnodup hnerest, hx, List.map_cons]

end Groups

/-! ## Graphs from lists -/

section Graphs

variable {α : Type} [DecidableEq α] [Hashable α]
variable [Scalar α] [LT α] [DecidableLT α] [OfNat α 0] [Add α] [Div α] [Neg α]

namespace Graph

/-- The graph of edges that are added one after the other. -/
def ofEdges (quantum : α) (edges : List (Point α × Point α)) : Graph α :=
  edges.foldl (fun g e => g.addEdge e.1 e.2) (withQuantum quantum)

/-- A graph made from edges represents the log of these edges. -/
theorem ofEdges_represents (quantum : α) (edges : List (Point α × Point α)) :
    (ofEdges quantum edges).Represents ⟨quantum, edges⟩ := by
  induction edges using List.reverseRecOn with
  | nil => exact withQuantum_represents quantum
  | append_singleton edges e ih =>
      rw [ofEdges, List.foldl_concat]
      exact ih.step (.addEdge e.1 e.2)

/-- **A log has one graph**: nodes, index and count are all determined. -/
theorem Represents.unique {g g' : Graph α} {l : EdgeLog α} (h : g.Represents l)
    (h' : g'.Represents l) : g = g' := by
  have hquantum : g.quantum = g'.quantum := h.quantum.trans h'.quantum.symm
  have hnodes : g.nodes = g'.nodes := by
    rw [← Array.toList_inj]
    exact (List.map_inj_right fun _ _ => Option.some.inj).mp (h.nodes.trans h'.nodes.symm)
  have hindex : g.index = g'.index := by
    refine Std.ExtHashMap.ext_getElem? ?_
    intro k
    refine Option.ext ?_
    intro i
    rw [h.index, h'.index]
  have hcount : g.edgeCount = g'.edgeCount := h.edgeCount.trans h'.edgeCount.symm
  cases g
  cases g'
  simp only [mk.injEq]
  exact ⟨hquantum, hnodes, hindex, hcount⟩

/-- The list of a graph's edges, read off the log alone. -/
theorem Represents.edgeList_eq {g : Graph α} {l : EdgeLog α} (h : g.Represents l) :
    g.edgeList = (l.keys.filterMap l.first?).flatMap fun p =>
      (l.destsFrom (l.key p)).map (p, ·) := by
  have hpoints : g.points = l.keys.filterMap l.first? := by
    calc g.points = (g.points.map some).filterMap id := by
          rw [List.filterMap_map, Function.id_comp, List.filterMap_some]
      _ = l.keys.filterMap l.first? := by
          rw [h.points, List.filterMap_map, Function.id_comp]
  rw [h.edgeList, hpoints]

/-- **A graph represents its own list**, whichever log it was made from. -/
theorem Represents.relisted {g : Graph α} {l : EdgeLog α} (h : g.Represents l) :
    g.Represents ⟨g.quantum, g.edgeList⟩ := by
  have hkeys : (g.nodes.toList.map fun n => g.key n.point) = l.keys := by
    simp only [h.key_eq, h.map_key]
  have hnodup : (g.nodes.toList.map fun n => g.key n.point).Nodup := by
    rw [hkeys]
    exact l.nodup_keys
  have hkey : ∀ n ∈ g.nodes.toList, ∀ e ∈ n.dests.toList.map (n.point, ·),
      g.key e.1 = g.key n.point := by
    intro n _ e he
    obtain ⟨d, -, rfl⟩ := List.mem_map.mp he
    rfl
  have hdests : ∀ n ∈ g.nodes.toList, n.dests.toList ≠ [] := by
    intro n hn
    obtain ⟨d, hd⟩ := h.exists_dest hn
    exact List.ne_nil_of_mem hd
  -- listed node by node, the keys come up in the order of the nodes
  have hlisted : EdgeLog.keys ⟨g.quantum, g.edgeList⟩
      = g.nodes.toList.map fun n => g.key n.point :=
    eraseDups_groups hkey hnodup fun n hn => mt List.map_eq_nil_iff.mp (hdests n hn)
  have hnode : ∀ n ∈ g.nodes.toList,
      EdgeLog.node? ⟨g.quantum, g.edgeList⟩ (g.key n.point) = some n := by
    intro n hn
    exact EdgeLog.node?_of_edgesFrom (filter_groups hkey hnodup hn) (hdests n hn)
  refine ⟨rfl, ?_, ?_, ?_⟩
  · rw [hlisted, List.map_map]
    exact List.map_congr_left fun n hn => (hnode n hn).symm
  · intro k i
    rw [hlisted, hkeys]
    exact h.index k i
  · rw [h.edgeCount, ← h.answers.edgeList_length]

end Graph

end Graphs

/-- **Relisting**: whatever was done to a graph that started empty, the graph of its listed
    edges on its grid is the very same, in its nodes and their order, in what they lead to,
    in its index and in its count.  So no two graphs on one grid have the same list. -/
theorem Graph.ofEdges_edgeList (quantum : Float) (ops : List (GraphOp Float)) :
    let g := (withQuantum quantum).run ops
    ofEdges g.quantum g.edgeList = g
      ∧ ∀ (quantum' : Float) (ops' : List (GraphOp Float)),
        let g' := (withQuantum quantum').run ops'
        g'.quantum = g.quantum → g'.edgeList = g.edgeList → g' = g := by
  -- two graphs that stand for one log are equal, and a graph stands for its own list
  have hself : ∀ (quantum : Float) (ops : List (GraphOp Float)),
      let g := (withQuantum quantum).run ops
      ofEdges g.quantum g.edgeList = g := by
    intro quantum ops g
    have hrep := ((withQuantum_represents quantum).run ops).relisted
    exact (ofEdges_represents g.quantum g.edgeList).unique hrep
  intro g
  refine ⟨hself quantum ops, ?_⟩
  intro quantum' ops' g' hquantum hlist
  calc g' = ofEdges g'.quantum g'.edgeList := (hself quantum' ops').symm
    _ = ofEdges g.quantum g.edgeList := congrArg₂ ofEdges hquantum hlist
    _ = g := hself quantum ops

/-- Two edges from one point, added with another edge in between or, once the graph has been
    emptied, one after the other: the lists agree and so do the graphs. -/
theorem Graph.ofEdges_edgeList_regrouped :
    let ops : List (GraphOp Float) :=
      [.addEdge ⟨0, 0⟩ ⟨1, 0⟩, .addEdge ⟨1, 0⟩ ⟨0, 1⟩, .addEdge ⟨0, 0⟩ ⟨0, 1⟩]
    let ops' : List (GraphOp Float) :=
      [.addEdge ⟨2, 0⟩ ⟨0, 0⟩, .clear,
        .addEdge ⟨0, 0⟩ ⟨1, 0⟩, .addEdge ⟨0, 0⟩ ⟨0, 1⟩, .addEdge ⟨1, 0⟩ ⟨0, 1⟩]
    ((withQuantum 1).run ops').edgeList = ((withQuantum 1).run ops).edgeList
      ∧ (withQuantum 1).run ops' = (withQuantum 1).run ops := by
  intro ops ops'
  have hrep : ((withQuantum 1).run ops).Represents
      ⟨1, [(⟨0, 0⟩, ⟨1, 0⟩), (⟨1, 0⟩, ⟨0, 1⟩), (⟨0, 0⟩, ⟨0, 1⟩)]⟩ :=
    (withQuantum_represents 1).run ops
  have hrep' : ((withQuantum 1).run ops').Represents
      ⟨1, [(⟨0, 0⟩, ⟨1, 0⟩), (⟨0, 0⟩, ⟨0, 1⟩), (⟨1, 0⟩, ⟨0, 1⟩)]⟩ :=
    (withQuantum_represents 1).run ops'
  have hquantum := hrep'.quantum.trans hrep.quantum.symm
  have hlisted : ((withQuantum 1).run ops).edgeList
      = [(⟨0, 0⟩, ⟨1, 0⟩), (⟨0, 0⟩, ⟨0, 1⟩), (⟨1, 0⟩, ⟨0, 1⟩)] := hrep.edgeList_eq.trans rfl
  have hlisted' : ((withQuantum 1).run ops').edgeList
      = [(⟨0, 0⟩, ⟨1, 0⟩), (⟨0, 0⟩, ⟨0, 1⟩), (⟨1, 0⟩, ⟨0, 1⟩)] := hrep'.edgeList_eq.trans rfl
  have hlist := hlisted'.trans hlisted.symm
  exact ⟨hlist, (ofEdges_edgeList 1 ops).2 1 ops' hquantum hlist⟩

end TurtleGrammar
