import TurtleGrammar.Plane.Rect
import TurtleGrammar.Proofs.EdgeLog
import TurtleGrammar.Proofs.Exact

/-! # Bounds — the rectangle around a drawing, exactly

    To bound points is to compare coordinates, and comparing finite floats loses
    nothing.  So the bounding rectangle of a graph with finite coordinates,
    read in the rationals, is the bounding rectangle of the rational points
    (`bounds_toRat`).

    `Rect.Bounds` says what such a rectangle is: each of its sides is the
    least, or the greatest, coordinate that some point has.  Growing a
    rectangle by a point preserves it, and the first point makes the empty
    rectangle into one. -/

namespace TurtleGrammar

open Scalar (greatest)

/-! ## Rectangles around points -/

/-- The rectangle is the least around the points, which are not none. -/
structure Rect.Bounds (r : Rect ℚ) (points : Set (Point ℚ)) : Prop where
  left : IsLeast (Point.x '' points) r.lower.x
  bottom : IsLeast (Point.y '' points) r.lower.y
  right : IsGreatest (Point.x '' points) r.upper.x
  top : IsGreatest (Point.y '' points) r.upper.y

/-- The point lies in the rectangle, its sides included. -/
structure Rect.Contains (r : Rect ℚ) (p : Point ℚ) : Prop where
  left : r.lower.x ≤ p.x
  bottom : r.lower.y ≤ p.y
  right : p.x ≤ r.upper.x
  top : p.y ≤ r.upper.y

/-- A rectangle grown around one point after the other. -/
def Rect.expandAll {α : Type} [LE α] [DecidableLE α] (r : Rect α) (points : List (Point α)) :
    Rect α :=
  points.foldl expand r

namespace Rect

/-- Over the rationals, growing takes minima and maxima. -/
theorem expand_eq (r : Rect ℚ) (p : Point ℚ) :
    r.expand p
      = ⟨⟨min p.x r.lower.x, min p.y r.lower.y⟩, ⟨max p.x r.upper.x, max p.y r.upper.y⟩⟩ := by
  rw [min_comm, min_comm p.y, max_comm, max_comm p.y]
  simp only [expand, Point.inf, Point.sup, min_def, max_def']

/-- **Step lemma**: a bounding rectangle grown by a point bounds that point as well. -/
theorem Bounds.expand {r : Rect ℚ} {points : Set (Point ℚ)} (h : r.Bounds points) (p : Point ℚ) :
    (r.expand p).Bounds (insert p points) := by
  rw [expand_eq]
  constructor
  all_goals rw [Set.image_insert_eq]
  · exact h.left.insert p.x
  · exact h.bottom.insert p.y
  · exact h.right.insert p.x
  · exact h.top.insert p.y

/-- **Run lemma**: grown by points in order, it bounds all of them. -/
theorem Bounds.expandAll {r : Rect ℚ} {points : Set (Point ℚ)} (h : r.Bounds points)
    (ps : List (Point ℚ)) : (r.expandAll ps).Bounds ({p | p ∈ ps} ∪ points) := by
  induction ps generalizing r points with
  | nil =>
      have hnone : {p : Point ℚ | p ∈ ([] : List (Point ℚ))} ∪ points = points := by simp
      rw [hnone]
      exact h
  | cons p ps ih =>
      have hmore : {q | q ∈ p :: ps} ∪ points = {q | q ∈ ps} ∪ insert p points := by
        ext q
        simp only [List.mem_cons, Set.mem_union, Set.mem_ofPred_eq, Set.mem_insert_iff]
        tauto
      rw [hmore]
      exact ih (h.expand p)

/-- Grown by one point that is not out of range, the empty rectangle is that point. -/
theorem empty_expand {p : Point ℚ} (hx : |p.x| ≤ greatest) (hy : |p.y| ≤ greatest) :
    (empty : Rect ℚ).expand p = ⟨p, p⟩ := by
  obtain ⟨hx₁, hx₂⟩ := abs_le.mp hx
  obtain ⟨hy₁, hy₂⟩ := abs_le.mp hy
  rw [expand_eq]
  show Rect.mk ⟨min p.x greatest, min p.y greatest⟩ ⟨max p.x (-greatest), max p.y (-greatest)⟩ = _
  rw [min_eq_left hx₂, min_eq_left hy₂, max_eq_left hx₁, max_eq_left hy₁]

theorem bounds_point (p : Point ℚ) : (Rect.mk p p).Bounds {p} := by
  constructor
  all_goals rw [Set.image_singleton]
  · exact isLeast_singleton
  · exact isLeast_singleton
  · exact isGreatest_singleton
  · exact isGreatest_singleton

/-- The empty rectangle grown around points within range is their bounding rectangle. -/
theorem bounds_expandAll {ps : List (Point ℚ)} (hne : ps ≠ [])
    (hrange : ∀ p ∈ ps, |p.x| ≤ greatest ∧ |p.y| ≤ greatest) :
    ((empty : Rect ℚ).expandAll ps).Bounds {p | p ∈ ps} := by
  cases ps with
  | nil => exact absurd rfl hne
  | cons p ps =>
      obtain ⟨hx, hy⟩ := hrange p (List.mem_cons_self ..)
      have hall : {q | q ∈ p :: ps} = {q | q ∈ ps} ∪ {p} := by
        ext q
        simp
      rw [hall]
      show (Rect.expandAll (empty.expand p) ps).Bounds _
      rw [empty_expand hx hy]
      exact (bounds_point p).expandAll ps

/-! ## What a bounding rectangle contains -/

/-- A bounding rectangle contains what it bounds. -/
theorem Bounds.contains {r : Rect ℚ} {points : Set (Point ℚ)} (h : r.Bounds points) {p : Point ℚ}
    (hp : p ∈ points) : r.Contains p where
  left := h.left.2 (Set.mem_image_of_mem _ hp)
  bottom := h.bottom.2 (Set.mem_image_of_mem _ hp)
  right := h.right.2 (Set.mem_image_of_mem _ hp)
  top := h.top.2 (Set.mem_image_of_mem _ hp)

/-- It has its corners the right way round. -/
theorem Bounds.isEmpty {r : Rect ℚ} {points : Set (Point ℚ)} (h : r.Bounds points) :
    r.isEmpty = false := by
  obtain ⟨p, hp, -⟩ := h.left.1
  have hr := h.contains hp
  have hx : ¬ r.upper.x < r.lower.x := not_lt.mpr (hr.left.trans hr.right)
  have hy : ¬ r.upper.y < r.lower.y := not_lt.mpr (hr.bottom.trans hr.top)
  simp [Rect.isEmpty, hx, hy]

end Rect

/-! ## Reading finite floats exactly -/

/-- Both coordinates are finite. -/
structure Point.IsFinite (p : Point Float) : Prop where
  x : p.x.isFinite = true
  y : p.y.isFinite = true

/-- Both corners are finite. -/
structure Rect.IsFinite (r : Rect Float) : Prop where
  lower : r.lower.IsFinite
  upper : r.upper.IsFinite

/-- The rational point with the same coordinates. -/
def Point.toRat (p : Point Float) : Point ℚ := ⟨Scalar.toRat p.x, Scalar.toRat p.y⟩

/-- The rational rectangle with the same corners. -/
def Rect.toRat (r : Rect Float) : Rect ℚ := ⟨r.lower.toRat, r.upper.toRat⟩

namespace Scalar

theorem isFinite_ite {c : Prop} [Decidable c] {a b : Float} (ha : a.isFinite = true)
    (hb : b.isFinite = true) : (if c then a else b).isFinite = true := by
  split
  · exact ha
  · exact hb

/-- What is chosen by comparing finite numbers is what comparing their values chooses. -/
theorem toRat_ite_le {x y a b : Float} (hx : x.isFinite = true) (hy : y.isFinite = true) :
    toRat (if x ≤ y then a else b) = if toRat x ≤ toRat y then toRat a else toRat b := by
  rw [apply_ite toRat]
  exact if_congr (toRat_le_iff hx hy) rfl rfl

end Scalar

namespace Rect

/-- A finite rectangle stays finite around a finite point. -/
theorem IsFinite.expand {r : Rect Float} {p : Point Float} (hr : r.IsFinite) (hp : p.IsFinite) :
    (r.expand p).IsFinite where
  lower := ⟨Scalar.isFinite_ite hr.lower.x hp.x, Scalar.isFinite_ite hr.lower.y hp.y⟩
  upper := ⟨Scalar.isFinite_ite hr.upper.x hp.x, Scalar.isFinite_ite hr.upper.y hp.y⟩

/-- **Step lemma**: to grow a finite rectangle and then to read it exactly is to read first. -/
theorem IsFinite.toRat_expand {r : Rect Float} {p : Point Float} (hr : r.IsFinite)
    (hp : p.IsFinite) : (r.expand p).toRat = r.toRat.expand p.toRat := by
  simp only [toRat, Rect.expand, Point.toRat, Point.inf, Point.sup,
    Scalar.toRat_ite_le hr.lower.x hp.x, Scalar.toRat_ite_le hr.lower.y hp.y,
    Scalar.toRat_ite_le hp.x hr.upper.x, Scalar.toRat_ite_le hp.y hr.upper.y]
  rfl

/-- **Run lemma**: the same for points in order. -/
theorem IsFinite.toRat_expandAll {r : Rect Float} (hr : r.IsFinite) {ps : List (Point Float)}
    (hps : ∀ p ∈ ps, p.IsFinite) :
    (r.expandAll ps).toRat = r.toRat.expandAll (ps.map Point.toRat) := by
  induction ps generalizing r with
  | nil => rfl
  | cons p ps ih =>
      have hp : p.IsFinite := hps p (List.mem_cons_self ..)
      have hrest : ∀ q ∈ ps, q.IsFinite := fun q hq => hps q (List.mem_cons_of_mem p hq)
      show ((r.expand p).expandAll ps).toRat
        = (r.toRat.expand p.toRat).expandAll (ps.map Point.toRat)
      rw [ih (hr.expand hp) hrest, hr.toRat_expand hp]

theorem isFinite_empty : (empty : Rect Float).IsFinite where
  lower := ⟨Scalar.isFinite_greatest, Scalar.isFinite_greatest⟩
  upper := ⟨Scalar.isFinite_neg_greatest, Scalar.isFinite_neg_greatest⟩

/-- The empty rectangle is the same over floats and over the rationals. -/
theorem toRat_empty : (empty : Rect Float).toRat = empty := by
  show Rect.mk ⟨Scalar.toRat greatest, Scalar.toRat greatest⟩
    ⟨Scalar.toRat (-greatest), Scalar.toRat (-greatest)⟩ = _
  rw [Scalar.toRat_greatest, Scalar.toRat_neg_greatest]
  rfl

end Rect

/-! ## The ends of a graph's edges -/

namespace Graph

/-- The ends of the listed edges. -/
def ends (g : Graph Float) : List (Point Float) := g.edgeList.flatMap fun e => [e.1, e.2]

/-- An edge is listed for every destination of a node, from the node's point. -/
theorem mem_edgeList_iff {g : Graph Float} {o d : Point Float} :
    (o, d) ∈ g.edgeList ↔ ∃ n ∈ g.nodes.toList, n.point = o ∧ d ∈ n.dests.toList := by
  rw [edgeList, List.mem_flatMap]
  refine exists_congr fun n => and_congr_right fun _ => ?_
  rw [List.mem_map]
  constructor
  · rintro ⟨d', hd, heq⟩
    obtain ⟨rfl, rfl⟩ := Prod.mk.inj heq
    exact ⟨rfl, hd⟩
  · rintro ⟨rfl, hd⟩
    exact ⟨d, hd, rfl⟩

/-- The ends are the points that some listed edge comes from or leads to. -/
theorem mem_ends {g : Graph Float} {p : Point Float} :
    p ∈ g.ends ↔ (∃ d, (p, d) ∈ g.edgeList) ∨ ∃ o, (o, p) ∈ g.edgeList := by
  rw [ends, List.mem_flatMap]
  constructor
  · rintro ⟨⟨o, d⟩, he, hp⟩
    rcases List.mem_pair.mp hp with rfl | rfl
    · exact .inl ⟨d, he⟩
    · exact .inr ⟨o, he⟩
  · rintro (⟨d, he⟩ | ⟨o, he⟩)
    · exact ⟨_, he, List.mem_pair.mpr (.inl rfl)⟩
    · exact ⟨_, he, List.mem_pair.mpr (.inr rfl)⟩

/-- So the bounds are made of the ends of the edges, and of nothing else. -/
theorem Represents.mem_endpoints {g : Graph Float} {l : EdgeLog Float} (h : g.Represents l)
    {p : Point Float} : p ∈ g.endpoints ↔ p ∈ g.ends := by
  rw [endpoints, List.mem_flatMap, mem_ends]
  constructor
  · rintro ⟨n, hn, hp⟩
    rcases List.mem_cons.mp hp with rfl | hp
    · obtain ⟨d, hd⟩ := h.exists_dest hn
      exact .inl ⟨d, mem_edgeList_iff.mpr ⟨n, hn, rfl, hd⟩⟩
    · exact .inr ⟨n.point, mem_edgeList_iff.mpr ⟨n, hn, rfl, hp⟩⟩
  · rintro (⟨d, he⟩ | ⟨o, he⟩)
    · obtain ⟨n, hn, rfl, -⟩ := mem_edgeList_iff.mp he
      exact ⟨n, hn, List.mem_cons_self ..⟩
    · obtain ⟨n, hn, -, hp⟩ := mem_edgeList_iff.mp he
      exact ⟨n, hn, List.mem_cons_of_mem _ hp⟩

/-- **The bounds of finite edges, read exactly, are the rectangle around their ends.** -/
theorem Represents.bounds_toRat {g : Graph Float} {l : EdgeLog Float} (h : g.Represents l)
    (hne : g.edgeList ≠ []) (hfinite : ∀ p ∈ g.ends, p.IsFinite) :
    g.bounds.toRat.Bounds {p | p ∈ g.ends.map Point.toRat} := by
  have hends : ∀ p ∈ g.endpoints, p.IsFinite := fun p hp => hfinite p (h.mem_endpoints.mp hp)
  have hsame : {p | p ∈ g.ends.map Point.toRat} = {p | p ∈ g.endpoints.map Point.toRat} := by
    ext p
    simp only [Set.mem_ofPred_eq, List.mem_map, h.mem_endpoints]
  have hbounds : g.bounds.toRat = Rect.empty.expandAll (g.endpoints.map Point.toRat) := by
    rw [← Rect.toRat_empty]
    exact Rect.isFinite_empty.toRat_expandAll hends
  -- an edge has an end, so the rectangle starts from a point
  obtain ⟨⟨o, d⟩, he⟩ := List.exists_mem_of_ne_nil _ hne
  have hmem : o ∈ g.endpoints := h.mem_endpoints.mpr (mem_ends.mpr (.inl ⟨d, he⟩))
  rw [hsame, hbounds]
  refine Rect.bounds_expandAll ?_ ?_
  · exact List.ne_nil_of_mem (List.mem_map_of_mem hmem)
  · intro q hq
    obtain ⟨p, -, rfl⟩ := List.mem_map.mp hq
    exact ⟨Scalar.abs_toRat_le p.x, Scalar.abs_toRat_le p.y⟩

end Graph

end TurtleGrammar
