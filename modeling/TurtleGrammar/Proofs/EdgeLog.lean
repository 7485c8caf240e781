import Mathlib.Data.List.Induction
import Mathlib.Data.List.Nodup
import TurtleGrammar.Plane.Graph

/-! # Edge logs — what a graph remembers of the edges that were added

    The plainest account of a graph is the list of edges that were added since
    it was last emptied, next to the grid that was chosen for them.  An
    `EdgeLog` is that account.  It finds a node by going through all its edges;
    a `Graph` keeps the edges grouped and finds a node through its index.

    This file shows that the two answer alike.

    - `Graph.Represents` ties nodes, index and count to a log.  Every operation
      preserves it, and so does every sequence of operations.
    - `Graph.Answers` says what can be observed of a graph in terms of the log,
      and follows from `Graph.Represents` alone. -/

namespace TurtleGrammar

/-! ## First occurrences -/

section FirstOccurrences

variable {κ β : Type} [DecidableEq κ]

/-- One more key is kept at the end if it is new, and dropped otherwise. -/
theorem eraseDups_concat (ks : List κ) (k : κ) :
    (ks ++ [k]).eraseDups = if k ∈ ks then ks.eraseDups else ks.eraseDups ++ [k] := by
  rw [List.eraseDups_append]
  by_cases h : k ∈ ks
  · rw [if_pos h]
    simp [List.removeAll, h]
  · rw [if_neg h]
    simp [List.removeAll, h, List.eraseDups_cons]

theorem nodup_eraseDups (ks : List κ) : ks.eraseDups.Nodup := by
  induction ks using List.reverseRecOn with
  | nil => exact List.nodup_nil
  | append_singleton ks k ih =>
      rw [eraseDups_concat]
      by_cases h : k ∈ ks
      · rw [if_pos h]
        exact ih
      · rw [if_neg h, List.nodup_append]
        refine ⟨ih, List.nodup_singleton k, ?_⟩
        intro a ha b hb hab
        rw [List.mem_singleton] at hb
        subst hb hab
        exact h (List.mem_eraseDups.mp ha)

/-- Grouping by a key, group after group in the order in which the keys appear, neither
    loses nor repeats an element. -/
theorem groups_perm (f : β → κ) (xs : List β) :
    ((xs.map f).eraseDups.flatMap fun k => xs.filter (f · = k)).Perm xs := by
  match xs with
  | [] => exact List.Perm.nil
  | x :: xs =>
      -- the later groups are those of the elements with another key than `x`
      let others := xs.filter (fun y => !(f y == f x))
      have hkeys : ((x :: xs).map f).eraseDups = f x :: (others.map f).eraseDups := by
        rw [List.map_cons, List.eraseDups_cons, List.filter_map]
        rfl
      have hgroup : ∀ k ∈ (others.map f).eraseDups,
          (x :: xs).filter (f · = k) = others.filter (f · = k) := by
        intro k hk
        obtain ⟨y, hy, rfl⟩ := List.mem_map.mp (List.mem_eraseDups.mp hk)
        have hne : f y ≠ f x := by simpa using (List.mem_filter.mp hy).2
        rw [List.filter_cons_of_neg (by simpa using hne.symm), List.filter_filter]
        refine List.filter_congr fun z _ => ?_
        by_cases hz : f z = f y <;> simp [hz, hne]
      have ih : ((others.map f).eraseDups.flatMap fun k => others.filter (f · = k)).Perm others :=
        groups_perm f others
      rw [hkeys, List.flatMap_cons, List.flatMap_congr hgroup]
      refine (ih.append_left _).trans ?_
      have hsplit := List.filter_append_perm (fun y => decide (f y = f x)) (x :: xs)
      have hrest : (x :: xs).filter (fun y => !decide (f y = f x)) = others := by
        rw [List.filter_cons_of_neg (by simp)]
        rfl
      rw [hrest] at hsplit
      exact hsplit
termination_by xs.length
decreasing_by exact Nat.lt_succ_of_le (List.length_filter_le _ _)

end FirstOccurrences

/-! ## Logs -/

/-- What can be done to a graph. -/
inductive GraphOp (α : Type) where
  | addEdge (origin dest : Point α)
  | clear
  | reset (quantum : α)

/-- A grid with the edges that were added to it, in order. -/
structure EdgeLog (α : Type) where
  quantum : α
  edges : List (Point α × Point α) := []

section Logs

variable {α : Type} [DecidableEq α]
variable [Scalar α] [LT α] [DecidableLT α] [OfNat α 0] [Add α] [Div α] [Neg α]

namespace EdgeLog

/-- The log after an operation. -/
def step (l : EdgeLog α) : GraphOp α → EdgeLog α
  | .addEdge origin dest => { l with edges := l.edges ++ [(origin, dest)] }
  | .clear => { l with edges := [] }
  | .reset quantum => { quantum, edges := [] }

/-- The log after operations in order. -/
def run (l : EdgeLog α) (ops : List (GraphOp α)) : EdgeLog α := ops.foldl step l

/-- The key of a point on the log's grid. -/
def key (l : EdgeLog α) (p : Point α) : NodeKey α := .ofPoint l.quantum p

/-- The keys of all origins, each where it first appears. -/
def keys (l : EdgeLog α) : List (NodeKey α) := (l.edges.map fun e => l.key e.1).eraseDups

/-- The edges whose origin has the key `k`, in order. -/
def edgesFrom (l : EdgeLog α) (k : NodeKey α) : List (Point α × Point α) :=
  l.edges.filter fun e => l.key e.1 = k

/-- The destinations of the edges whose origin has the key `k`, in order. -/
def destsFrom (l : EdgeLog α) (k : NodeKey α) : List (Point α) := (l.edgesFrom k).map Prod.snd

/-- The first origin with the key `k`. -/
def first? (l : EdgeLog α) (k : NodeKey α) : Option (Point α) :=
  (l.edgesFrom k).head?.map Prod.fst

/-- The node of the key `k`. -/
def node? (l : EdgeLog α) (k : NodeKey α) : Option (Node α) :=
  (l.first? k).map fun p => ⟨p, (l.destsFrom k).toArray⟩

end EdgeLog

/-! ## What one more edge does to a log -/

namespace EdgeLog

/-- The keys of a log are those of the origins of its edges. -/
theorem mem_keys {l : EdgeLog α} {k : NodeKey α} :
    k ∈ l.keys ↔ ∃ e ∈ l.edges, l.key e.1 = k := by
  rw [keys, List.mem_eraseDups, List.mem_map]

theorem nodup_keys (l : EdgeLog α) : l.keys.Nodup := nodup_eraseDups _

theorem edgesFrom_eq_nil {l : EdgeLog α} {k : NodeKey α} : l.edgesFrom k = [] ↔ k ∉ l.keys := by
  rw [edgesFrom, List.filter_eq_nil_iff, mem_keys]
  constructor
  · rintro h ⟨e, he, hk⟩
    exact h e he (decide_eq_true hk)
  · intro h e he hk
    exact h ⟨e, he, of_decide_eq_true hk⟩

/-- An edge adds the key of its origin, unless it is there already. -/
theorem keys_addEdge (l : EdgeLog α) (origin dest : Point α) :
    (l.step (.addEdge origin dest)).keys
      = if l.key origin ∈ l.keys then l.keys else l.keys ++ [l.key origin] := by
  show ((l.edges ++ [(origin, dest)]).map fun e => l.key e.1).eraseDups = _
  rw [List.map_append, List.map_singleton, eraseDups_concat]
  simp only [keys, List.mem_eraseDups]

/-- An edge is put last among those from its own key, and into no other group. -/
theorem edgesFrom_addEdge (l : EdgeLog α) (origin dest : Point α) (k : NodeKey α) :
    (l.step (.addEdge origin dest)).edgesFrom k
      = l.edgesFrom k ++ if l.key origin = k then [(origin, dest)] else [] := by
  show (l.edges ++ [(origin, dest)]).filter (fun e => l.key e.1 = k) = _
  rw [List.filter_append]
  by_cases h : l.key origin = k
  · rw [if_pos h, List.filter_singleton, decide_eq_true h]
    rfl
  · rw [if_neg h, List.filter_singleton, decide_eq_false h]
    rfl

theorem node?_eq_none {l : EdgeLog α} {k : NodeKey α} : l.node? k = none ↔ k ∉ l.keys := by
  rw [node?, first?, Option.map_eq_none_iff, Option.map_eq_none_iff, List.head?_eq_none_iff,
    edgesFrom_eq_nil]

/-- The point of a node has the node's key. -/
theorem key_of_node? {l : EdgeLog α} {k : NodeKey α} {n : Node α} (h : l.node? k = some n) :
    l.key n.point = k := by
  obtain ⟨p, hp, rfl⟩ := Option.map_eq_some_iff.mp h
  obtain ⟨e, he, rfl⟩ := Option.map_eq_some_iff.mp hp
  have hmem : e ∈ l.edgesFrom k := List.mem_of_mem_head? he
  exact of_decide_eq_true (List.mem_filter.mp hmem).2

/-- The destinations of a node are those of the edges from its key, in order. -/
theorem dests_of_node? {l : EdgeLog α} {k : NodeKey α} {n : Node α} (h : l.node? k = some n) :
    n.dests.toList = l.destsFrom k := by
  obtain ⟨p, -, rfl⟩ := Option.map_eq_some_iff.mp h
  rfl

/-- A key whose edges are those of a node is the key of that node. -/
theorem node?_of_edgesFrom {l : EdgeLog α} {k : NodeKey α} {n : Node α}
    (hedges : l.edgesFrom k = n.dests.toList.map (n.point, ·)) (hne : n.dests.toList ≠ []) :
    l.node? k = some n := by
  obtain ⟨d, ds, hdests⟩ := List.exists_cons_of_ne_nil hne
  have hfirst : l.first? k = some n.point := by
    rw [first?, hedges, hdests]
    rfl
  have hall : l.destsFrom k = n.dests.toList := by
    rw [destsFrom, hedges, List.map_map]
    exact List.map_id' _
  rw [node?, hfirst, hall]
  rfl

/-- An edge leaves the nodes under other keys alone. -/
theorem node?_addEdge_of_ne {l : EdgeLog α} {origin : Point α} {k : NodeKey α} (dest : Point α)
    (h : l.key origin ≠ k) : (l.step (.addEdge origin dest)).node? k = l.node? k := by
  simp only [node?, first?, destsFrom, edgesFrom_addEdge, if_neg h, List.append_nil]

/-- An edge from a known node adds its destination there, and the node keeps its first point. -/
theorem node?_addEdge_of_some {l : EdgeLog α} {origin : Point α} {n : Node α} (dest : Point α)
    (h : l.node? (l.key origin) = some n) :
    (l.step (.addEdge origin dest)).node? (l.key origin)
      = some { n with dests := n.dests.push dest } := by
  obtain ⟨p, hp, rfl⟩ := Option.map_eq_some_iff.mp h
  obtain ⟨e, he, rfl⟩ := Option.map_eq_some_iff.mp hp
  simp [node?, first?, destsFrom, edgesFrom_addEdge, List.head?_append, he]

/-- An edge from an unknown key makes a node of its own origin. -/
theorem node?_addEdge_of_notMem {l : EdgeLog α} {origin : Point α} (dest : Point α)
    (h : l.key origin ∉ l.keys) :
    (l.step (.addEdge origin dest)).node? (l.key origin) = some ⟨origin, #[dest]⟩ := by
  simp [node?, first?, destsFrom, edgesFrom_addEdge, edgesFrom_eq_nil.mpr h]

end EdgeLog

end Logs

/-! ## Graphs and logs -/

section Graphs

variable {α : Type} [DecidableEq α] [Hashable α]
variable [Scalar α] [LT α] [DecidableLT α] [OfNat α 0] [Add α] [Div α] [Neg α]

namespace Graph

/-- The graph after an operation. -/
def step (g : Graph α) : GraphOp α → Graph α
  | .addEdge origin dest => g.addEdge origin dest
  | .clear => g.clear
  | .reset quantum => g.reset quantum

/-- The graph after operations in order. -/
def run (g : Graph α) (ops : List (GraphOp α)) : Graph α := ops.foldl step g

/-- The invariant of the representation: the nodes are those of the log's keys, in their
    order, and the index finds every key where it stands. -/
structure Represents (g : Graph α) (l : EdgeLog α) : Prop where
  quantum : g.quantum = l.quantum
  nodes : g.nodes.toList.map some = l.keys.map l.node?
  index : ∀ (k : NodeKey α) (i : Nat), g.index[k]? = some i ↔ l.keys[i]? = some k
  edgeCount : g.edgeCount = l.edges.length

/-- What a graph answers, in terms of the log alone. -/
structure Answers (g : Graph α) (l : EdgeLog α) : Prop where
  quantum : g.quantum = l.quantum
  /-- The nodes are the first points of the keys, in the order of the keys. -/
  points : g.points.map some = l.keys.map l.first?
  /-- A point has no neighbors exactly when no edge starts at its key. -/
  neighbors_none : ∀ p, g.neighbors? p = none ↔ ∀ e ∈ l.edges, l.key e.1 ≠ l.key p
  /-- Otherwise its neighbors are the destinations of all edges that start there. -/
  neighbors_some : ∀ p dests, g.neighbors? p = some dests → dests.toList = l.destsFrom (l.key p)
  contains : ∀ p, g.contains p = (g.neighbors? p).isSome
  edgeList : g.edgeList = g.points.flatMap fun p => (l.destsFrom (l.key p)).map (p, ·)
  /-- Up to the choice of the points for their keys, no edge is lost or repeated. -/
  edgeList_perm : (g.edgeList.map fun e => (l.key e.1, e.2)).Perm
    (l.edges.map fun e => (l.key e.1, e.2))
  nodeCount : g.nodeCount = l.keys.length
  edgeCount : g.edgeCount = l.edges.length
  edgeList_length : g.edgeList.length = l.edges.length
  /-- What the index says is a position of a node. -/
  index_lt : ∀ (k : NodeKey α) (i : Nat), g.index[k]? = some i → i < g.nodes.size

end Graph

/-! ## Every operation preserves the representation -/

namespace Graph

/-- A graph without nodes represents a log without edges. -/
theorem withQuantum_represents (quantum : α) :
    (withQuantum quantum : Graph α).Represents ⟨quantum, []⟩ where
  quantum := rfl
  nodes := rfl
  index := by
    intro k i
    show (∅ : Std.ExtHashMap (NodeKey α) Nat)[k]? = some i ↔ _
    rw [Std.ExtHashMap.getElem?_empty]
    constructor
    · intro h
      exact nomatch h
    · intro h
      exact nomatch h
  edgeCount := rfl

/-- The nodes of the graph stand in the order of the log's keys. -/
theorem Represents.getElem? {g : Graph α} {l : EdgeLog α} (h : g.Represents l) (i : Nat) :
    (g.nodes.toList[i]?).map some = (l.keys[i]?).map l.node? := by
  rw [← List.getElem?_map, ← List.getElem?_map, h.nodes]

theorem Represents.index_eq_none {g : Graph α} {l : EdgeLog α} (h : g.Represents l)
    {k : NodeKey α} : g.index[k]? = none ↔ k ∉ l.keys := by
  constructor
  · intro hnone hmem
    obtain ⟨i, hi⟩ := List.mem_iff_getElem?.mp hmem
    rw [(h.index k i).mpr hi] at hnone
    exact nomatch hnone
  · intro hmem
    cases hk : g.index[k]? with
    | none => rfl
    | some i => exact absurd (List.mem_iff_getElem?.mpr ⟨i, (h.index k i).mp hk⟩) hmem

theorem Represents.size_eq {g : Graph α} {l : EdgeLog α} (h : g.Represents l) :
    g.nodes.size = l.keys.length := by
  have hlen := congrArg List.length h.nodes
  rwa [List.length_map, List.length_map, Array.length_toList] at hlen

theorem addEdge_of_some {g : Graph α} {origin : Point α} {i : Nat} (dest : Point α)
    (h : g.index[g.key origin]? = some i) :
    g.addEdge origin dest
      = { g with
          nodes := g.nodes.modify i fun n => { n with dests := n.dests.push dest }
          edgeCount := g.edgeCount + 1 } := by
  simp only [addEdge, h]

theorem addEdge_of_none {g : Graph α} {origin : Point α} (dest : Point α)
    (h : g.index[g.key origin]? = none) :
    g.addEdge origin dest
      = { g with
          nodes := g.nodes.push ⟨origin, #[dest]⟩
          index := g.index.insert (g.key origin) g.nodes.size
          edgeCount := g.edgeCount + 1 } := by
  simp only [addEdge, h]

theorem Represents.key_eq {g : Graph α} {l : EdgeLog α} (h : g.Represents l) (p : Point α) :
    g.key p = l.key p := by
  rw [key, EdgeLog.key, h.quantum]

/-- An edge from a known origin is taken up by the graph as it is by the log. -/
theorem Represents.addEdge_known {g : Graph α} {l : EdgeLog α} (h : g.Represents l)
    {origin : Point α} {i : Nat} (dest : Point α) (hi : g.index[g.key origin]? = some i) :
    (g.addEdge origin dest).Represents (l.step (.addEdge origin dest)) := by
  rw [addEdge_of_some dest hi]
  have hpos : l.keys[i]? = some (l.key origin) := by
    rw [h.key_eq] at hi
    exact (h.index _ i).mp hi
  have hkeys : (l.step (.addEdge origin dest)).keys = l.keys := by
    rw [EdgeLog.keys_addEdge, if_pos (List.mem_iff_getElem?.mpr ⟨i, hpos⟩)]
  refine ⟨h.quantum, ?_, ?_, ?_⟩
  · rw [hkeys]
    refine List.ext_getElem? ?_
    intro j
    have hj := h.getElem? j
    rw [Array.toList_modify, List.getElem?_map, List.getElem?_map]
    by_cases hij : i = j
    · -- the node of the edge: its destinations grow
      subst hij
      rw [hpos, Option.map_some] at hj ⊢
      obtain ⟨n, hn, hnode⟩ := Option.map_eq_some_iff.mp hj
      rw [List.getElem?_modify_eq, hn, EdgeLog.node?_addEdge_of_some dest hnode.symm]
      rfl
    · -- any other node has another key, since no key stands twice
      rw [List.getElem?_modify_ne _ _ hij, hj]
      refine Option.map_congr ?_
      intro k hk
      refine (EdgeLog.node?_addEdge_of_ne dest ?_).symm
      rintro rfl
      obtain ⟨hlt, -⟩ := List.getElem?_eq_some_iff.mp hpos
      exact hij ((List.getElem?_inj hlt l.nodup_keys).mp (hpos.trans hk.symm))
  · intro k j
    rw [hkeys]
    exact h.index k j
  · show g.edgeCount + 1 = (l.edges ++ [(origin, dest)]).length
    rw [List.length_append, h.edgeCount]
    rfl

/-- An edge from a new origin is taken up by the graph as it is by the log. -/
theorem Represents.addEdge_new {g : Graph α} {l : EdgeLog α} (h : g.Represents l)
    {origin : Point α} (dest : Point α) (hnone : g.index[g.key origin]? = none) :
    (g.addEdge origin dest).Represents (l.step (.addEdge origin dest)) := by
  rw [addEdge_of_none dest hnone]
  have hnew : l.key origin ∉ l.keys := by
    rw [h.key_eq] at hnone
    exact h.index_eq_none.mp hnone
  have hkeys : (l.step (.addEdge origin dest)).keys = l.keys ++ [l.key origin] := by
    rw [EdgeLog.keys_addEdge, if_neg hnew]
  have hold : l.keys.map (l.step (.addEdge origin dest)).node? = l.keys.map l.node? := by
    refine List.map_congr_left ?_
    intro k hk
    refine EdgeLog.node?_addEdge_of_ne dest ?_
    rintro rfl
    exact hnew hk
  refine ⟨h.quantum, ?_, ?_, ?_⟩
  · rw [hkeys, Array.toList_push, List.map_append, List.map_append, List.map_singleton,
      List.map_singleton, hold, h.nodes, EdgeLog.node?_addEdge_of_notMem dest hnew]
  · intro k i
    rw [h.key_eq, Std.ExtHashMap.getElem?_insert, h.size_eq]
    by_cases hk : l.key origin = k
    · subst hk
      rw [if_pos (beq_self_eq_true _)]
      -- the new key stands last, and nowhere else
      have hlast := List.getElem?_concat_length (l := l.keys) (a := l.key origin)
      rw [← hkeys] at hlast
      constructor
      · intro hi
        rw [← Option.some.inj hi]
        exact hlast
      · intro hi
        obtain ⟨hlt, -⟩ := List.getElem?_eq_some_iff.mp hi
        rw [(List.getElem?_inj hlt (EdgeLog.nodup_keys _)).mp (hi.trans hlast.symm)]
    · -- an old key stands where it stood: the index changes for the new key alone
      rw [if_neg (by simpa using hk), h.index, hkeys, List.getElem?_append]
      by_cases hlt : i < l.keys.length
      · rw [if_pos hlt]
      · rw [if_neg hlt, List.getElem?_eq_none (by omega), List.getElem?_singleton]
        simp [hk]
  · show g.edgeCount + 1 = (l.edges ++ [(origin, dest)]).length
    rw [List.length_append, h.edgeCount]
    rfl

/-- **Step lemma**: an operation takes a graph that represents a log to one that
    represents the log after it. -/
theorem Represents.step {g : Graph α} {l : EdgeLog α} (h : g.Represents l) (op : GraphOp α) :
    (g.step op).Represents (l.step op) := by
  cases op with
  | addEdge origin dest =>
      cases hi : g.index[g.key origin]? with
      | none => exact h.addEdge_new dest hi
      | some i => exact h.addEdge_known dest hi
  | clear =>
      show (g.clear).Represents ⟨l.quantum, []⟩
      rw [clear_eq, h.quantum]
      exact withQuantum_represents l.quantum
  | reset quantum =>
      show (g.reset quantum).Represents ⟨quantum, []⟩
      rw [reset_eq]
      exact withQuantum_represents quantum

/-- **Run lemma**: so does any sequence of operations. -/
theorem Represents.run {g : Graph α} {l : EdgeLog α} (h : g.Represents l)
    (ops : List (GraphOp α)) : (g.run ops).Represents (l.run ops) := by
  induction ops generalizing g l with
  | nil => exact h
  | cons op ops ih => exact ih (h.step op)

/-! ## What the representation lets a graph answer -/

/-- Looking a key up and then going to its position finds the node of the key. -/
theorem Represents.lookup {g : Graph α} {l : EdgeLog α} (h : g.Represents l) (k : NodeKey α) :
    (g.index[k]?.bind fun i => g.nodes[i]?) = l.node? k := by
  cases hk : g.index[k]? with
  | none => exact (EdgeLog.node?_eq_none.mpr (h.index_eq_none.mp hk)).symm
  | some i =>
      have hi := h.getElem? i
      rw [(h.index k i).mp hk, Option.map_some, Array.getElem?_toList] at hi
      obtain ⟨n, hn, hnode⟩ := Option.map_eq_some_iff.mp hi
      rw [Option.bind_some, hn, hnode]

/-- The neighbours of a point are the destinations of the log's node under its key. -/
theorem Represents.neighbors?_eq {g : Graph α} {l : EdgeLog α} (h : g.Represents l)
    (p : Point α) : g.neighbors? p = (l.node? (l.key p)).map Node.dests := by
  rw [neighbors?, h.key_eq, h.lookup]

/-- Every node is the node of its own point. -/
theorem Represents.node?_of_mem {g : Graph α} {l : EdgeLog α} (h : g.Represents l) {n : Node α}
    (hn : n ∈ g.nodes.toList) : l.node? (l.key n.point) = some n := by
  have hmem : some n ∈ l.keys.map l.node? := by
    rw [← h.nodes]
    exact List.mem_map_of_mem hn
  obtain ⟨k, -, hk⟩ := List.mem_map.mp hmem
  rw [EdgeLog.key_of_node? hk]
  exact hk

/-- No node is without an edge. -/
theorem Represents.exists_dest {g : Graph α} {l : EdgeLog α} (h : g.Represents l)
    {n : Node α} (hn : n ∈ g.nodes.toList) : ∃ d, d ∈ n.dests.toList := by
  have hnode : l.node? (l.key n.point) = some n := h.node?_of_mem hn
  have hkey : l.key n.point ∈ l.keys := by
    by_contra hnot
    rw [EdgeLog.node?_eq_none.mpr hnot] at hnode
    cases hnode
  obtain ⟨e, he⟩ := List.exists_mem_of_ne_nil _ (EdgeLog.edgesFrom_eq_nil.not_left.mpr hkey)
  rw [EdgeLog.dests_of_node? hnode]
  exact ⟨e.2, List.mem_map_of_mem he⟩

/-- What is read off the nodes, one by one, can be read off the log. -/
theorem Represents.map_nodes {g : Graph α} {l : EdgeLog α} (h : g.Represents l) {β : Type}
    (f : Node α → β) :
    (g.nodes.toList.map f).map some = l.keys.map fun k => (l.node? k).map f := by
  have hmap := congrArg (List.map (Option.map f)) h.nodes
  rw [List.map_map, List.map_map] at hmap
  rw [List.map_map]
  exact hmap

/-- The keys of the nodes are those of the log, in the same order. -/
theorem Represents.map_key {g : Graph α} {l : EdgeLog α} (h : g.Represents l) :
    (g.nodes.toList.map fun n => l.key n.point) = l.keys := by
  refine (List.map_inj_right fun _ _ => Option.some.inj).mp ?_
  rw [h.map_nodes]
  refine List.map_congr_left ?_
  intro k hk
  obtain ⟨n, hn⟩ := Option.ne_none_iff_exists'.mp fun hnone => EdgeLog.node?_eq_none.mp hnone hk
  rw [hn, Option.map_some, EdgeLog.key_of_node? hn]

/-- The points of the graph are the first points of the log's keys. -/
theorem Represents.points {g : Graph α} {l : EdgeLog α} (h : g.Represents l) :
    g.points.map some = l.keys.map l.first? := by
  rw [Graph.points, h.map_nodes]
  refine List.map_congr_left ?_
  intro k _
  rw [EdgeLog.node?, Option.map_map]
  exact Option.map_id'

/-- The edges are listed node by node, each from its node's point. -/
theorem Represents.edgeList {g : Graph α} {l : EdgeLog α} (h : g.Represents l) :
    g.edgeList = g.points.flatMap fun p => (l.destsFrom (l.key p)).map (p, ·) := by
  rw [Graph.edgeList, Graph.points, List.flatMap_map]
  refine List.flatMap_congr ?_
  intro n hn
  rw [EdgeLog.dests_of_node? (h.node?_of_mem hn)]

/-- Up to which point stands for a node, the edges listed are those of the log, grouped by key. -/
theorem Represents.edgeList_keyed {g : Graph α} {l : EdgeLog α} (h : g.Represents l) :
    (g.edgeList.map fun e => (l.key e.1, e.2))
      = (l.keys.flatMap l.edgesFrom).map fun e => (l.key e.1, e.2) := by
  rw [h.edgeList, ← h.map_key, Graph.points, List.map_flatMap, List.map_flatMap, List.flatMap_map,
    List.flatMap_map]
  refine List.flatMap_congr ?_
  intro n _
  rw [EdgeLog.destsFrom, List.map_map, List.map_map]
  -- the listed origin is the node's point, the logged one has at least its key
  refine List.map_congr_left ?_
  intro e he
  have hkey : l.key e.1 = l.key n.point := of_decide_eq_true (List.mem_filter.mp he).2
  show (l.key n.point, e.2) = (l.key e.1, e.2)
  rw [hkey]

/-- Grouping loses no edge and adds none. -/
theorem Represents.edgeList_perm {g : Graph α} {l : EdgeLog α} (h : g.Represents l) :
    (g.edgeList.map fun e => (l.key e.1, e.2)).Perm (l.edges.map fun e => (l.key e.1, e.2)) := by
  rw [h.edgeList_keyed]
  exact (groups_perm (fun e : Point α × Point α => l.key e.1) l.edges).map _

/-- The points contained are those whose neighbours are known. -/
theorem Represents.contains_eq {g : Graph α} {l : EdgeLog α} (h : g.Represents l) (p : Point α) :
    g.contains p = (g.neighbors? p).isSome := by
  rw [contains, Std.ExtHashMap.contains_eq_isSome_getElem?, h.neighbors?_eq, h.key_eq,
    Option.isSome_map, Bool.eq_iff_iff, Option.isSome_iff_ne_none, Option.isSome_iff_ne_none,
    ne_eq, ne_eq, h.index_eq_none, EdgeLog.node?_eq_none]

/-- Whatever represents a log answers as the log says. -/
theorem Represents.answers {g : Graph α} {l : EdgeLog α} (h : g.Represents l) : g.Answers l where
  quantum := h.quantum
  points := h.points
  neighbors_none := by
    intro p
    rw [h.neighbors?_eq, Option.map_eq_none_iff, EdgeLog.node?_eq_none, EdgeLog.mem_keys]
    constructor
    · intro hno e he hk
      exact hno ⟨e, he, hk⟩
    · rintro hno ⟨e, he, hk⟩
      exact hno e he hk
  neighbors_some := by
    intro p dests hp
    rw [h.neighbors?_eq] at hp
    obtain ⟨n, hn, rfl⟩ := Option.map_eq_some_iff.mp hp
    exact EdgeLog.dests_of_node? hn
  contains := h.contains_eq
  edgeList := h.edgeList
  edgeList_perm := h.edgeList_perm
  nodeCount := h.size_eq
  edgeCount := h.edgeCount
  edgeList_length := by
    -- the listed edges are the log put in another order, so there are as many of them
    have hlen := h.edgeList_perm.length_eq
    rwa [List.length_map, List.length_map] at hlen
  index_lt := by
    intro k i hi
    obtain ⟨hlt, -⟩ := List.getElem?_eq_some_iff.mp ((h.index k i).mp hi)
    rw [h.size_eq]
    exact hlt

end Graph

end Graphs

/-- **Refinement**: whatever is done to a graph that started empty, on any grid or on the
    standard one, it answers as the plain log of its edges does. -/
theorem Graph.run_answers_log (ops : List (GraphOp Float)) :
    (∀ quantum : Float, ((withQuantum quantum).run ops).Answers (EdgeLog.run ⟨quantum, []⟩ ops))
      ∧ (new.run ops).Answers (EdgeLog.run ⟨NodeKey.tolerance, []⟩ ops) := by
  constructor
  · intro quantum
    exact ((withQuantum_represents quantum).run ops).answers
  · exact ((withQuantum_represents NodeKey.tolerance).run ops).answers

end TurtleGrammar
