import TurtleGrammar.Proofs.Nearest
import TurtleGrammar.Proofs.Relisting

/-! # Merging — a node is no wider than a cell

    Origins with the same key are merged: an edge is listed with the first point
    that was seen for its key, and not with the origin that it was given.  With
    a tolerance between points such steps could add up.  A key does not depend
    on the points that were merged before, and so they do not.

    - **Keys** (`NodeKey.Separates`): two points on the grid with the same key are
      at most one cell apart on each axis, two points off the grid with the same
      key have the same coordinates, and no point on the grid has the key of one
      off it.
    - **Graphs** (`Graph.Represents.merges`): a graph tells points apart by their
      keys alone, whatever was merged in between.

    Both are stated for any account of the points, and hold in two of them
    (`Graph.merges_within_cell`).  Over the rational numbers, where a division is
    exact, a cell is as wide as the quantum.  Over the floats cells are counted as
    they are computed, and coordinates agree up to the sign of a zero. -/

namespace TurtleGrammar

open Scalar

/-! ## Keys -/

/-- How the numbers of a type are rounded: `value` is what is rounded to an integer, and
    `Same` what adding zero leaves of a difference. -/
structure Scalar.Reads {α : Type} [Scalar α] [LT α] [DecidableLT α] [Neg α] [Add α] [OfNat α 0]
    (value : α → ℚ) (Same : α → α → Prop) : Prop where
  nearest : ∀ x : α, Scalar.nearest x = nearestToRat (value x)
  countable : ∀ x : α, NodeKey.countable x = true → |value x| < 2 ^ 53
  exact : ∀ x y : α, x + 0 = y + 0 → Same x y

/-- Rationals are read as themselves, and two of them are the same only if they are equal. -/
theorem Scalar.reads_rat : Reads (α := ℚ) id Eq where
  nearest _ := rfl
  countable x h := by
    rw [NodeKey.countable, Bool.and_eq_true, decide_eq_true_iff, decide_eq_true_iff] at h
    exact abs_lt.mpr h
  exact x y h := by
    rwa [add_zero, add_zero] at h

/-- Floats are read as their values, and zeros are the same whatever their sign. -/
theorem Scalar.reads_float : Reads toRat Scalar.Same where
  nearest := nearestToFloat_eq
  countable _ := abs_toRat_lt
  exact _ _ := same_of_add_zero_eq

namespace NodeKey

/-- A position on the grid: counted without rounding, and a signed 64-bit integer. -/
def IsIndex (n : ℤ) : Prop := |n| ≤ 2 ^ 53 ∧ (Int64.ofInt n).toInt = n

theorem isIndex_of_abs_le {n : ℤ} (h : |n| ≤ 2 ^ 53) : IsIndex n := by
  obtain ⟨hlower, hupper⟩ := abs_le.mp h
  refine ⟨h, Int64.toInt_ofInt_of_le ?_ ?_⟩ <;> norm_num <;> omega

section Keys

variable {α : Type} [Scalar α] [LT α] [DecidableLT α] [OfNat α 0] [Add α] [Neg α]

/-- What can be counted is rounded to an index. -/
theorem isIndex_nearest {value : α → ℚ} {Same : α → α → Prop} (h : Reads value Same) {x : α}
    (hx : countable x = true) : IsIndex (nearest x) := by
  rw [h.nearest]
  exact isIndex_of_abs_le (abs_nearestToRat_le (by exact_mod_cast h.countable x hx))

variable [Div α]

/-- There is a grid and it reaches as far as the point. -/
def OnGrid (quantum : α) (p : Point α) : Prop :=
  ((0 < quantum && isFinite quantum) && (countable (p.x / quantum) && countable (p.y / quantum)))
    = true

theorem ofPoint_of_onGrid {quantum : α} {p : Point α} (h : OnGrid quantum p) :
    ofPoint quantum p = .grid (nearest (p.x / quantum)) (nearest (p.y / quantum)) := if_pos h

theorem ofPoint_of_not_onGrid {quantum : α} {p : Point α} (h : ¬ OnGrid quantum p) :
    ofPoint quantum p = .exact (p.x + 0) (p.y + 0) := if_neg h

/-- What the keys of a grid tell apart: points are `Near` to each other if they have one key on
    the grid and the `Same` if they have one key off it. -/
structure Separates (quantum : α) (Reached : Point α → Prop)
    (Near Same : Point α → Point α → Prop) : Prop where
  near : ∀ p p', ofPoint quantum p = ofPoint quantum p' → Reached p' → Near p p'
  same : ∀ p p', ofPoint quantum p = ofPoint quantum p' → ¬ Reached p' → Same p p'
  boundary : ∀ p p', ofPoint quantum p = ofPoint quantum p' → Reached p → Reached p'
  index : ∀ p column row, ofPoint quantum p = .grid column row → IsIndex column ∧ IsIndex row

/-- Two points are at most one cell apart on each axis. -/
def WithinCell (value : α → ℚ) (quantum : α) (p p' : Point α) : Prop :=
  |value (p.x / quantum) - value (p'.x / quantum)| ≤ 1
    ∧ |value (p.y / quantum) - value (p'.y / quantum)| ≤ 1

/-- **Keys separate points**, on the grid and off it. -/
theorem separates {value : α → ℚ} {Same : α → α → Prop} (h : Reads value Same) (quantum : α) :
    Separates quantum (OnGrid quantum) (WithinCell value quantum)
      (fun p p' => Same p.x p'.x ∧ Same p.y p'.y) := by
  have hboundary : ∀ p p' : Point α, ofPoint quantum p = ofPoint quantum p' →
      OnGrid quantum p → OnGrid quantum p' := by
    intro p p' hkey hp
    by_contra hp'
    -- a cell on one side, coordinates on the other
    rw [ofPoint_of_onGrid hp, ofPoint_of_not_onGrid hp'] at hkey
    cases hkey
  refine ⟨?_, ?_, hboundary, ?_⟩
  · intro p p' hkey hp'
    have hp := hboundary p' p hkey.symm hp'
    rw [ofPoint_of_onGrid hp, ofPoint_of_onGrid hp', grid.injEq, h.nearest, h.nearest, h.nearest,
      h.nearest] at hkey
    exact ⟨abs_sub_le_one hkey.1, abs_sub_le_one hkey.2⟩
  · intro p p' hkey hp'
    have hp := mt (hboundary p p' hkey) hp'
    rw [ofPoint_of_not_onGrid hp, ofPoint_of_not_onGrid hp', exact.injEq] at hkey
    exact ⟨h.exact _ _ hkey.1, h.exact _ _ hkey.2⟩
  · intro p column row hkey
    by_cases hp : OnGrid quantum p
    · rw [ofPoint_of_onGrid hp] at hkey
      cases hkey
      obtain ⟨-, hcells⟩ := Bool.and_eq_true_iff.mp hp
      obtain ⟨hcolumn, hrow⟩ := Bool.and_eq_true_iff.mp hcells
      exact ⟨isIndex_nearest h hcolumn, isIndex_nearest h hrow⟩
    · rw [ofPoint_of_not_onGrid hp] at hkey
      cases hkey

end Keys

/-! ## Rational points -/

/-- A point is less than `2^53` cells from zero on both axes. -/
def InReach (quantum : ℚ) (p : Point ℚ) : Prop :=
  0 < quantum ∧ |p.x| < 2 ^ 53 * quantum ∧ |p.y| < 2 ^ 53 * quantum

/-- Over the rationals, the coordinates that can be counted are those within `2 ^ 53` quanta. -/
theorem countable_div_iff {quantum : ℚ} (h : 0 < quantum) (x : ℚ) :
    countable (x / quantum) = true ↔ |x| < 2 ^ 53 * quantum := by
  rw [countable, Bool.and_eq_true, decide_eq_true_iff, decide_eq_true_iff, ← abs_lt, abs_div,
    abs_of_pos h, div_lt_iff₀ h]
  rfl

/-- Over the rationals, the points on the grid are those within reach. -/
theorem onGrid_iff_inReach {quantum : ℚ} {p : Point ℚ} :
    OnGrid quantum p ↔ InReach quantum p := by
  rw [OnGrid, InReach, Bool.and_eq_true, Bool.and_eq_true, Bool.and_eq_true, decide_eq_true_iff]
  constructor
  · rintro ⟨⟨hpos, -⟩, hx, hy⟩
    exact ⟨hpos, (countable_div_iff hpos _).mp hx, (countable_div_iff hpos _).mp hy⟩
  · rintro ⟨hpos, hx, hy⟩
    exact ⟨⟨hpos, rfl⟩, (countable_div_iff hpos _).mpr hx, (countable_div_iff hpos _).mpr hy⟩

/-- Two points are at most a distance apart on each axis. -/
def Within (distance : ℚ) (p p' : Point ℚ) : Prop :=
  |p.x - p'.x| ≤ distance ∧ |p.y - p'.y| ≤ distance

/-- A cell is as wide as the quantum. -/
theorem withinCell_iff {quantum : ℚ} (h : 0 < quantum) {p p' : Point ℚ} :
    WithinCell id quantum p p' ↔ Within quantum p p' := by
  have haxis : ∀ x x' : ℚ, |x / quantum - x' / quantum| ≤ 1 ↔ |x - x'| ≤ quantum := by
    intro x x'
    rw [← sub_div, abs_div, abs_of_pos h, div_le_one h]
  exact and_congr (haxis p.x p'.x) (haxis p.y p'.y)

/-- Keys over the rationals separate what the exact grid separates. -/
theorem separates_rat (quantum : ℚ) :
    Separates quantum (InReach quantum) (Within quantum) Eq := by
  have h := separates reads_rat quantum
  refine ⟨?_, ?_, ?_, h.index⟩
  · intro p p' hkey hp'
    exact (withinCell_iff hp'.1).mp (h.near p p' hkey (onGrid_iff_inReach.mpr hp'))
  · rintro ⟨x, y⟩ ⟨x', y'⟩ hkey hp'
    obtain ⟨rfl, rfl⟩ := h.same _ _ hkey (mt onGrid_iff_inReach.mp hp')
    rfl
  · intro p p' hkey hp
    exact onGrid_iff_inReach.mp (h.boundary p p' hkey (onGrid_iff_inReach.mpr hp))

end NodeKey

/-! ## Graphs -/

namespace Graph

section Graphs

variable {α : Type} [DecidableEq α] [Hashable α]
variable [Scalar α] [LT α] [DecidableLT α] [OfNat α 0] [Add α] [Div α] [Neg α]

/-- Two points are found at the same node. -/
structure SameNode (g : Graph α) (p p' : Point α) : Prop where
  found : ∃ i, g.index[g.key p]? = some i
  same : g.index[g.key p]? = g.index[g.key p']?

/-- Two points are the same node when they have the same key, and that key has edges. -/
theorem Represents.sameNode_iff {g : Graph α} {l : EdgeLog α} (h : g.Represents l)
    {p p' : Point α} : g.SameNode p p' ↔ l.key p = l.key p' ∧ l.key p ∈ l.keys := by
  constructor
  · rintro ⟨⟨i, hi⟩, hsame⟩
    have hi' := hsame.symm.trans hi
    rw [h.key_eq, h.index] at hi hi'
    exact ⟨Option.some.inj (hi.symm.trans hi'), List.mem_of_getElem? hi⟩
  · rintro ⟨hkey, hmem⟩
    obtain ⟨i, hi⟩ := List.mem_iff_getElem?.mp hmem
    rw [← h.index, ← h.key_eq] at hi
    refine ⟨⟨i, hi⟩, ?_⟩
    rw [h.key_eq, h.key_eq, hkey]

/-- Every listed edge stems from one that was added: it leads where that one leads, and
    starts at a point with the same key. -/
theorem Represents.stems {g : Graph α} {l : EdgeLog α} (h : g.Represents l) :
    ∃ sources, sources.Perm l.edges
      ∧ List.Forall₂ (fun e c => e.2 = c.2 ∧ l.key e.1 = l.key c.1) g.edgeList sources := by
  refine ⟨l.keys.flatMap l.edgesFrom,
    groups_perm (fun e : Point α × Point α => l.key e.1) l.edges, ?_⟩
  -- the edges in the order of their keys are listed one for one, origins aside
  have hkeyed := List.forall₂_eq_eq_eq.symm ▸ h.edgeList_keyed
  rw [List.forall₂_map_left_iff, List.forall₂_map_right_iff] at hkeyed
  refine hkeyed.imp ?_
  intro e c hec
  exact ⟨(Prod.mk.inj hec).2, (Prod.mk.inj hec).1⟩

/-- What merging leaves of the edges that were added and of the points that are asked for, where
    the grid reaches the points `Reached`. -/
structure Merges (g : Graph α) (calls : List (Point α × Point α)) (Reached : Point α → Prop)
    (Near Same : Point α → Point α → Prop) : Prop where
  /-- Every listed edge stems from a call of its own, with the same destination.  Its origin is
      near to the one that was given, and off the grid it is the same. -/
  stems : ∃ sources, sources.Perm calls
    ∧ List.Forall₂ (fun e c => e.2 = c.2 ∧ (Reached c.1 → Near e.1 c.1)
        ∧ (¬ Reached c.1 → Same e.1 c.1)) g.edgeList sources
  near : ∀ p p', g.SameNode p p' → Reached p' → Near p p'
  same : ∀ p p', g.SameNode p p' → ¬ Reached p' → Same p p'
  /-- No point on the grid shares its node with one that is off it. -/
  boundary : ∀ p p', Reached p → ¬ Reached p' → ¬ g.SameNode p p'
  index : ∀ (column row : ℤ) (i : ℕ), g.index[(.grid column row : NodeKey α)]? = some i →
    NodeKey.IsIndex column ∧ NodeKey.IsIndex row

/-- **A graph tells points apart as their keys do**, whatever was merged in between. -/
theorem Represents.merges {g : Graph α} {l : EdgeLog α} (h : g.Represents l)
    {Reached : Point α → Prop} {Near Same : Point α → Point α → Prop}
    (hkeys : NodeKey.Separates l.quantum Reached Near Same) :
    g.Merges l.edges Reached Near Same where
  stems := by
    obtain ⟨sources, hperm, hstems⟩ := h.stems
    refine ⟨sources, hperm, hstems.imp ?_⟩
    rintro e c ⟨hdest, hkey⟩
    exact ⟨hdest, hkeys.near e.1 c.1 hkey, hkeys.same e.1 c.1 hkey⟩
  near p p' hsame := hkeys.near p p' (h.sameNode_iff.mp hsame).1
  same p p' hsame := hkeys.same p p' (h.sameNode_iff.mp hsame).1
  boundary p p' hp hp' hsame := hp' (hkeys.boundary p p' (h.sameNode_iff.mp hsame).1 hp)
  index column row i hi := by
    have hmem := List.mem_of_getElem? ((h.index _ i).mp hi)
    obtain ⟨e, -, hkey⟩ := EdgeLog.mem_keys.mp hmem
    exact hkeys.index e.1 column row hkey

end Graphs

/-- **Merging moves no point by more than a cell**, whatever edges are added on whatever grid.
    Where divisions are exact, that is by no more than the quantum, so points further apart
    than that never share a node.  With the divisions as they are computed, the numbers of
    cells are at most one apart. -/
theorem merges_within_cell :
    (∀ (quantum : ℚ) (calls : List (Point ℚ × Point ℚ)),
      let g := ofEdges quantum calls
      g.Merges calls (NodeKey.InReach quantum) (NodeKey.Within quantum) Eq
        ∧ ∀ p p' : Point ℚ, 0 < quantum →
          quantum < |p.x - p'.x| ∨ quantum < |p.y - p'.y| → ¬ g.SameNode p p')
      ∧ ∀ (quantum : Float) (calls : List (Point Float × Point Float)),
        (ofEdges quantum calls).Merges calls (NodeKey.OnGrid quantum)
          (NodeKey.WithinCell toRat quantum) (fun p p' => Same p.x p'.x ∧ Same p.y p'.y) := by
  constructor
  · intro quantum calls g
    have hmerges : g.Merges calls (NodeKey.InReach quantum) (NodeKey.Within quantum) Eq :=
      (ofEdges_represents quantum calls).merges (NodeKey.separates_rat quantum)
    refine ⟨hmerges, ?_⟩
    intro p p' hpos hapart hsame
    have hwithin : NodeKey.Within quantum p p' := by
      by_cases hp' : NodeKey.InReach quantum p'
      · exact hmerges.near p p' hsame hp'
      · -- out of reach only equal points share a node
        obtain rfl := hmerges.same p p' hsame hp'
        simp [NodeKey.Within, hpos.le]
    exact hapart.elim hwithin.1.not_gt hwithin.2.not_gt
  · intro quantum calls
    exact (ofEdges_represents quantum calls).merges (NodeKey.separates reads_float quantum)

/-- On both sides of zero, with a half that goes away from it: two points of one cell are merged,
    the next cell but one is too far away, and so is what the grid does not reach. -/
theorem merges_within_cell_around_zero :
    let g := ofEdges (1 : ℚ)
      [(⟨-1 / 2, 0⟩, ⟨0, 0⟩), (⟨-7 / 5, 0⟩, ⟨1, 0⟩), (⟨2 ^ 53, 0⟩, ⟨0, 1⟩)]
    g.SameNode ⟨-1 / 2, 0⟩ ⟨-7 / 5, 0⟩ ∧ NodeKey.Within 1 ⟨-1 / 2, 0⟩ ⟨-7 / 5, 0⟩
      ∧ ¬ g.SameNode ⟨2 / 5, 0⟩ ⟨-7 / 5, 0⟩ ∧ ¬ g.SameNode ⟨-1 / 2, 0⟩ ⟨2 ^ 53, 0⟩ := by
  intro g
  obtain ⟨hmerges, hapart⟩ := merges_within_cell.1 1
    [(⟨-1 / 2, 0⟩, ⟨0, 0⟩), (⟨-7 / 5, 0⟩, ⟨1, 0⟩), (⟨2 ^ 53, 0⟩, ⟨0, 1⟩)]
  have hsame : g.SameNode ⟨-1 / 2, 0⟩ ⟨-7 / 5, 0⟩ :=
    (ofEdges_represents _ _).sameNode_iff.mpr (by decide +kernel)
  have hnear : NodeKey.InReach 1 ⟨-1 / 2, 0⟩ ∧ NodeKey.InReach 1 ⟨-7 / 5, 0⟩ := by
    norm_num [NodeKey.InReach, abs_lt]
  have hfar : ¬ NodeKey.InReach 1 ⟨2 ^ 53, 0⟩ := by
    norm_num [NodeKey.InReach]
  refine ⟨hsame, hmerges.near _ _ hsame hnear.2, hapart _ _ one_pos (.inl ?_),
    hmerges.boundary _ _ hnear.1 hfar⟩
  norm_num [lt_abs]

end Graph

end TurtleGrammar
