import TurtleGrammar.Proofs.Bounds
import TurtleGrammar.Proofs.FloatOrder

/-! # Extremes — what the bounds of a graph are, float by float

    The bounds of a graph are four running comparisons, one for each side.  Each
    starts from a sentinel and sees every coordinate once, in the order of the
    nodes.  `Scalar.best` is such a comparison, and two facts about it make up
    all that is said of bounds here.

    - Among numbers it finds one that is related to all of them
      (`best_of_numbers`).  Infinities are numbers like others.
    - The NaN it takes over from any float and gives up for any float.  So it
      finds what it would have found had it started at the last NaN
      (`best_after_nan`).

    The sentinel takes part in the comparison.  No finite coordinate lies beyond
    it, so among finite coordinates it is found only where one of them is the
    sentinel itself (`eq_greatest_of_le`). -/

namespace TurtleGrammar

open Scalar (greatest)

namespace Scalar

/-! ## Running comparisons -/

/-- Any two floats are related one way or the other, but the NaN is related to none. -/
structure OrdersNumbers (le : Float → Float → Prop) : Prop where
  total : ∀ {x y}, x.isNaN = false → y.isNaN = false → le x y ∨ le y x
  trans : ∀ {x y z}, le x y → le y z → le x z
  numbers : ∀ {x y}, le x y → x.isNaN = false ∧ y.isNaN = false

theorem ordersNumbers_le : OrdersNumbers (· ≤ ·) where
  total := float_le_total
  trans := float_le_trans
  numbers := isNaN_of_le

theorem ordersNumbers_ge : OrdersNumbers (· ≥ ·) where
  total := fun hx hy => float_le_total hy hx
  trans := fun hxy hyz => float_le_trans hyz hxy
  numbers := fun h => (isNaN_of_le h).symm

section Best

variable (le : Float → Float → Prop) [DecidableRel le]

/-- The first of two floats if it is related to the second, else the second. -/
def better (x y : Float) : Float := if le x y then x else y

/-- What is left of floats when each is compared with what is left of those before it. -/
def best (start : Float) (cs : List Float) : Float := cs.foldl (better le) start

/-- `m` is one of the floats and related to all of them. -/
structure IsBest (le : Float → Float → Prop) (cs : List Float) (m : Float) : Prop where
  mem : m ∈ cs
  le : ∀ c ∈ cs, le m c

theorem IsBest.isLeast {cs : List Float} {m : Float} (h : IsBest (· ≤ ·) cs m) :
    IsLeast {c | c ∈ cs} m := ⟨h.mem, h.le⟩

theorem IsBest.isGreatest {cs : List Float} {m : Float} (h : IsBest (· ≥ ·) cs m) :
    IsGreatest {c | c ∈ cs} m := ⟨h.mem, h.le⟩

/-- The better of two floats is one of them. -/
theorem better_eq_or_eq (x y : Float) : better le x y = x ∨ better le x y = y := ite_eq_or_eq ..

variable {le}

/-- The best is the start or one of the floats compared with it. -/
theorem best_mem (start : Float) (cs : List Float) : best le start cs ∈ start :: cs := by
  induction cs generalizing start with
  | nil => exact List.mem_singleton_self _
  | cons c cs ih =>
      have hrest : best le start (c :: cs) ∈ better le start c :: cs := ih (better le start c)
      rcases better_eq_or_eq le start c with heq | heq
      · rw [heq] at hrest
        exact List.cons_subset_cons start (List.subset_cons_self c cs) hrest
      · rw [heq] at hrest
        exact List.mem_cons_of_mem start hrest

namespace OrdersNumbers

variable (h : OrdersNumbers le)
include h

omit [DecidableRel le] in
theorem refl {x : Float} (hx : x.isNaN = false) : le x x := (h.total hx hx).elim id id

/-- **Step lemma**: of two numbers the better one is related to both. -/
theorem better_le {x y : Float} (hx : x.isNaN = false) (hy : y.isNaN = false) :
    le (better le x y) x ∧ le (better le x y) y := by
  rw [better]
  split
  · rename_i hxy
    exact ⟨h.refl hx, hxy⟩
  · rename_i hxy
    exact ⟨(h.total hx hy).resolve_left hxy, h.refl hy⟩

/-- **Run lemma**: among numbers the best one is found. -/
theorem best_of_numbers {start : Float} {cs : List Float}
    (hcs : ∀ c ∈ start :: cs, c.isNaN = false) : IsBest le (start :: cs) (best le start cs) := by
  refine ⟨best_mem start cs, ?_⟩
  induction cs generalizing start with
  | nil =>
      intro c hc
      rw [List.mem_singleton.mp hc]
      exact h.refl (hcs start (List.mem_singleton_self _))
  | cons c cs ih =>
      obtain ⟨hstart, hc, hrest⟩ := by simpa only [List.forall_mem_cons] using hcs
      obtain ⟨hleft, hright⟩ := h.better_le hstart hc
      have hbetter : (better le start c).isNaN = false := (h.numbers hleft).1
      obtain ⟨hle, htail⟩ :=
        List.forall_mem_cons.mp (ih (List.forall_mem_cons.mpr ⟨hbetter, hrest⟩))
      exact List.forall_mem_cons.mpr
        ⟨h.trans hle hleft, List.forall_mem_cons.mpr ⟨h.trans hle hright, htail⟩⟩

/-! ## The NaN -/

/-- The NaN is given up for whatever comes next. -/
theorem better_of_isNaN_left {x : Float} (hx : x.isNaN = true) (y : Float) :
    better le x y = y := by
  refine if_neg ?_
  intro hle
  rw [(h.numbers hle).1] at hx
  cases hx

/-- And it is taken over from whatever came before. -/
theorem better_of_isNaN_right (x : Float) {y : Float} (hy : y.isNaN = true) :
    better le x y = y := by
  refine if_neg ?_
  intro hle
  rw [(h.numbers hle).2] at hy
  cases hy

/-- Whatever came before a NaN is forgotten. -/
theorem best_after_nan (start : Float) (before : List Float) {last : Float}
    (hlast : last.isNaN = true) (after : List Float) :
    best le start (before ++ last :: after) = best le last after := by
  rw [best, List.foldl_append, List.foldl_cons, h.better_of_isNaN_right _ hlast]
  rfl

/-- **What is found when there is a NaN**: the NaN if it comes last, and else the best of
    what comes after it. -/
theorem best_after_last_nan (start : Float) (before : List Float) {last : Float}
    (hlast : last.isNaN = true) {after : List Float} (hafter : ∀ c ∈ after, c.isNaN = false) :
    (after = [] → (best le start (before ++ last :: after)).isNaN = true)
      ∧ (after ≠ [] → IsBest le after (best le start (before ++ last :: after))) := by
  rw [h.best_after_nan start before hlast]
  cases after with
  | nil => exact ⟨fun _ => hlast, fun hne => absurd rfl hne⟩
  | cons c cs =>
      have hnext : best le last (c :: cs) = best le c cs := by
        rw [best, List.foldl_cons, h.better_of_isNaN_left hlast]
        rfl
      rw [hnext]
      exact ⟨fun hnil => absurd hnil (List.cons_ne_nil c cs), fun _ => h.best_of_numbers hafter⟩

end OrdersNumbers

end Best

/-- Without a NaN among them all floats are numbers. -/
theorem numbers_of_no_nan {cs : List Float} (h : ¬ ∃ c ∈ cs, c.isNaN = true) :
    ∀ c ∈ cs, c.isNaN = false := by
  intro c hc
  exact Bool.eq_false_iff.mpr fun hnan => h ⟨c, hc, hnan⟩

/-- Floats with a NaN among them have a last one. -/
theorem exists_last_nan {cs : List Float} (h : ∃ c ∈ cs, c.isNaN = true) :
    ∃ before last after, cs = before ++ last :: after ∧ last.isNaN = true
      ∧ ∀ c ∈ after, c.isNaN = false := by
  induction cs with
  | nil => simp at h
  | cons c cs ih =>
      by_cases hrest : ∃ c ∈ cs, c.isNaN = true
      · obtain ⟨before, last, after, rfl, hlast, hafter⟩ := ih hrest
        exact ⟨c :: before, last, after, rfl, hlast, hafter⟩
      · obtain ⟨d, hd, hnan⟩ := h
        rcases List.mem_cons.mp hd with rfl | hd
        · exact ⟨[], d, cs, rfl, hnan, numbers_of_no_nan hrest⟩
        · exact absurd ⟨d, hd, hnan⟩ hrest

/-! ## The sentinel -/

/-- A finite float that is not below the greatest one is the greatest one, bit for bit. -/
theorem eq_greatest_of_le {x : Float} (hx : x.isFinite = true) (h : greatest ≤ x) :
    x = greatest := by
  have hle : x ≤ greatest := by
    rw [toRat_le_iff hx isFinite_greatest, toRat_greatest]
    exact (abs_le.mp (abs_toRat_le x)).2
  exact (eq_of_le_of_le h hle (by decide)).symm

/-- Below the least finite number there is no other finite one. -/
theorem eq_neg_greatest_of_le {x : Float} (hx : x.isFinite = true) (h : x ≤ -greatest) :
    x = -greatest := by
  have hle : -greatest ≤ x := by
    rw [toRat_le_iff isFinite_neg_greatest hx, toRat_neg_greatest]
    exact (abs_le.mp (abs_toRat_le x)).1
  exact (eq_of_le_of_le hle h (by decide)).symm

/-- **What is found among finite numbers**: one of them, whether the running comparison
    starts from the greatest float to find the least, or the other way round. -/
theorem best_of_finite {le : Float → Float → Prop} [DecidableRel le] (h : OrdersNumbers le)
    {start : Float} (hstart : start.isFinite = true)
    (hbeyond : ∀ x : Float, x.isFinite = true → le start x → x = start) {cs : List Float}
    (hne : cs ≠ []) (hcs : ∀ c ∈ cs, c.isFinite = true) : IsBest le cs (best le start cs) := by
  have hnumbers : ∀ c ∈ start :: cs, c.isNaN = false :=
    List.forall_mem_cons.mpr ⟨isNaN_of_isFinite hstart, fun c hc => isNaN_of_isFinite (hcs c hc)⟩
  obtain ⟨hmem, hle⟩ := h.best_of_numbers hnumbers
  obtain ⟨hle, hrest⟩ := List.forall_mem_cons.mp hle
  refine ⟨?_, hrest⟩
  rcases List.mem_cons.mp hmem with heq | hmem
  · obtain ⟨c, hc⟩ := List.exists_mem_of_ne_nil cs hne
    have hsame : c = start := hbeyond c (hcs c hc) (heq ▸ hrest c hc)
    rw [heq, ← hsame]
    exact hc
  · exact hmem

end Scalar

/-! ## The sides of a rectangle -/

/-- One of the two axes. -/
inductive Axis where
  | x
  | y

/-- The coordinate of a point on an axis. -/
def Point.coord {α : Type} (axis : Axis) (p : Point α) : α :=
  match axis with
  | .x => p.x
  | .y => p.y

/-- The point lies in the rectangle, its sides included, as floats compare. -/
def Rect.Covers (r : Rect Float) (p : Point Float) : Prop :=
  ∀ axis : Axis, r.lower.coord axis ≤ p.coord axis ∧ p.coord axis ≤ r.upper.coord axis

/-- `low` is the least of the floats and `high` the greatest. -/
structure Extremes (cs : List Float) (low high : Float) : Prop where
  least : IsLeast {c | c ∈ cs} low
  greatest : IsGreatest {c | c ∈ cs} high

/-- What `low` and `high` are to the floats that they bound on an axis. -/
structure Sides (cs : List Float) (low high : Float) : Prop where
  /-- Numbers lie between them.  They are extremes, with the sentinels counted in. -/
  numbers : (∀ c ∈ cs, c.isNaN = false) → (∀ c ∈ cs, low ≤ c ∧ c ≤ high)
    ∧ IsLeast {c | c ∈ greatest :: cs} low ∧ IsGreatest {c | c ∈ -greatest :: cs} high
  /-- Of finite numbers they are the extremes. -/
  finite : cs ≠ [] → (∀ c ∈ cs, c.isFinite = true) → Extremes cs low high
  /-- With a NaN they are the extremes of what comes after the last one, if anything does. -/
  nan : (∃ c ∈ cs, c.isNaN = true) → ∃ before last after, cs = before ++ last :: after
    ∧ last.isNaN = true ∧ (∀ c ∈ after, c.isNaN = false)
    ∧ (after = [] → low.isNaN = true ∧ high.isNaN = true)
    ∧ (after ≠ [] → Extremes after low high)

/-- Such sides are not the wrong way round. -/
theorem Sides.not_lt {cs : List Float} {low high : Float} (h : Sides cs low high) (hne : cs ≠ []) :
    ¬ high < low := by
  by_cases hnan : ∃ c ∈ cs, c.isNaN = true
  · obtain ⟨before, last, after, -, -, -, hnone, hsome⟩ := h.nan hnan
    by_cases hnil : after = []
    · exact Scalar.float_not_lt_of_isNaN (hnone hnil).1
    · exact Scalar.float_not_lt_of_le ((hsome hnil).least.2 (hsome hnil).greatest.1)
  · obtain ⟨c, hc⟩ := List.exists_mem_of_ne_nil cs hne
    obtain ⟨hlow, hhigh⟩ := (h.numbers (Scalar.numbers_of_no_nan hnan)).1 c hc
    exact Scalar.float_not_lt_of_le (Scalar.float_le_trans hlow hhigh)

namespace Rect

open Scalar

/-- On each axis the near side of a grown rectangle is a running comparison. -/
theorem lower_expandAll (axis : Axis) (r : Rect Float) (ps : List (Point Float)) :
    (r.expandAll ps).lower.coord axis
      = best (· ≤ ·) (r.lower.coord axis) (ps.map (Point.coord axis)) := by
  rw [best, List.foldl_map]
  refine (List.foldl_hom (fun r : Rect Float => r.lower.coord axis) ?_).symm
  intro r p
  cases axis <;> rfl

/-- And so is the far side. -/
theorem upper_expandAll (axis : Axis) (r : Rect Float) (ps : List (Point Float)) :
    (r.expandAll ps).upper.coord axis
      = best (· ≥ ·) (r.upper.coord axis) (ps.map (Point.coord axis)) := by
  rw [best, List.foldl_map]
  refine (List.foldl_hom (fun r : Rect Float => r.upper.coord axis) ?_).symm
  intro r p
  cases axis <;> rfl

theorem lower_empty (axis : Axis) : (empty : Rect Float).lower.coord axis = greatest := by
  cases axis <;> rfl

theorem upper_empty (axis : Axis) : (empty : Rect Float).upper.coord axis = -greatest := by
  cases axis <;> rfl

/-- Grown from the empty rectangle, the two sides of an axis are those of the points. -/
theorem sides_expandAll (axis : Axis) (ps : List (Point Float)) :
    Sides (ps.map (Point.coord axis)) ((empty.expandAll ps).lower.coord axis)
      ((empty.expandAll ps).upper.coord axis) := by
  rw [lower_expandAll, upper_expandAll, lower_empty, upper_empty]
  generalize ps.map (Point.coord axis) = cs
  constructor
  -- each side is the best of a fold that starts with its own end of the empty rectangle
  case numbers =>
    intro hcs
    have hlow := ordersNumbers_le.best_of_numbers
      (List.forall_mem_cons.mpr ⟨isNaN_of_isFinite isFinite_greatest, hcs⟩)
    have hhigh := ordersNumbers_ge.best_of_numbers
      (List.forall_mem_cons.mpr ⟨isNaN_of_isFinite isFinite_neg_greatest, hcs⟩)
    refine ⟨?_, hlow.isLeast, hhigh.isGreatest⟩
    intro c hc
    exact ⟨hlow.le c (List.mem_cons_of_mem _ hc), hhigh.le c (List.mem_cons_of_mem _ hc)⟩
  case finite =>
    intro hne hcs
    have hlow := best_of_finite ordersNumbers_le isFinite_greatest
      (fun _ => eq_greatest_of_le) hne hcs
    have hhigh := best_of_finite ordersNumbers_ge isFinite_neg_greatest
      (fun _ => eq_neg_greatest_of_le) hne hcs
    exact ⟨hlow.isLeast, hhigh.isGreatest⟩
  -- a comparison with a NaN fails, so that the next coordinate replaces it and the fold starts anew
  case nan =>
    intro hnan
    obtain ⟨before, last, after, rfl, hlast, hafter⟩ := exists_last_nan hnan
    obtain ⟨hlow, hlow'⟩ := ordersNumbers_le.best_after_last_nan greatest before hlast hafter
    obtain ⟨hhigh, hhigh'⟩ := ordersNumbers_ge.best_after_last_nan (-greatest) before hlast hafter
    refine ⟨before, last, after, rfl, hlast, hafter, fun hnil => ⟨hlow hnil, hhigh hnil⟩, ?_⟩
    intro hne
    exact ⟨(hlow' hne).isLeast, (hhigh' hne).isGreatest⟩

/-- A rectangle grown around some points is not empty. -/
theorem isEmpty_expandAll {ps : List (Point Float)} (hne : ps ≠ []) :
    (empty.expandAll ps).isEmpty = false := by
  have haxis : ∀ axis : Axis,
      ¬ (empty.expandAll ps).upper.coord axis < (empty.expandAll ps).lower.coord axis := by
    intro axis
    exact (sides_expandAll axis ps).not_lt (mt List.map_eq_nil_iff.mp hne)
  rw [isEmpty, Bool.or_eq_false_iff, decide_eq_false_iff_not, decide_eq_false_iff_not]
  exact ⟨haxis .x, haxis .y⟩

/-- The rectangle around finite points contains them, and lies in every rectangle that
    does. -/
theorem least_expandAll {ps : List (Point Float)} (hne : ps ≠ []) (hps : ∀ p ∈ ps, p.IsFinite) :
    (∀ p ∈ ps, (empty.expandAll ps).Covers p)
      ∧ ∀ r : Rect Float, (∀ p ∈ ps, r.Covers p) →
        r.Covers (empty.expandAll ps).lower ∧ r.Covers (empty.expandAll ps).upper := by
  have haxis : ∀ axis : Axis, Extremes (ps.map (Point.coord axis))
      ((empty.expandAll ps).lower.coord axis) ((empty.expandAll ps).upper.coord axis) := by
    intro axis
    refine (sides_expandAll axis ps).finite (mt List.map_eq_nil_iff.mp hne) ?_
    intro c hc
    obtain ⟨p, hp, rfl⟩ := List.mem_map.mp hc
    cases axis with
    | x => exact (hps p hp).x
    | y => exact (hps p hp).y
  refine ⟨?_, ?_⟩
  · intro p hp axis
    have hmem : p.coord axis ∈ ps.map (Point.coord axis) := List.mem_map_of_mem hp
    exact ⟨(haxis axis).least.2 hmem, (haxis axis).greatest.2 hmem⟩
  · intro r hr
    -- both sides are coordinates of points, and those the rectangle has between its own
    have hbetween : ∀ (axis : Axis), ∀ c ∈ ps.map (Point.coord axis),
        r.lower.coord axis ≤ c ∧ c ≤ r.upper.coord axis := by
      intro axis c hc
      obtain ⟨p, hp, rfl⟩ := List.mem_map.mp hc
      exact hr p hp axis
    exact ⟨fun axis => hbetween axis _ (haxis axis).least.1,
      fun axis => hbetween axis _ (haxis axis).greatest.1⟩

end Rect

/-! ## The bounds of a graph -/

namespace Graph

/-- A graph has endpoints as soon as it has an edge. -/
theorem Represents.endpoints_eq_nil {g : Graph Float} {l : EdgeLog Float} (h : g.Represents l) :
    g.endpoints = [] ↔ g.edgeList = [] := by
  rw [List.eq_nil_iff_forall_not_mem, List.eq_nil_iff_forall_not_mem]
  constructor
  · rintro hnone ⟨o, d⟩ he
    exact hnone o (h.mem_endpoints.mpr (mem_ends.mpr (.inl ⟨d, he⟩)))
  · intro hnone p hp
    rcases mem_ends.mp (h.mem_endpoints.mp hp) with ⟨d, he⟩ | ⟨o, he⟩
    · exact hnone (p, d) he
    · exact hnone (o, p) he

/-- **The bounds of a graph.**  Whatever was done to a graph that started empty, on each axis
    its bounds are the sides of the coordinates in the order of the nodes: of every origin,
    then of its destinations.  With an edge they are not empty, and around finite ends they
    are the least rectangle.  Without one they are the empty rectangle. -/
theorem bounds_exact (quantum : Float) (ops : List (GraphOp Float)) :
    let g := (Graph.withQuantum quantum).run ops
    (∀ axis : Axis, Sides (g.endpoints.map (Point.coord axis)) (g.bounds.lower.coord axis)
      (g.bounds.upper.coord axis))
    ∧ (∀ p, p ∈ g.endpoints ↔ p ∈ g.ends)
    ∧ (g.edgeList ≠ [] → g.endpoints ≠ [] ∧ g.bounds.isEmpty = false)
    ∧ (g.edgeList ≠ [] → (∀ p ∈ g.ends, p.IsFinite) →
      (∀ p ∈ g.ends, g.bounds.Covers p)
        ∧ ∀ r : Rect Float, (∀ p ∈ g.ends, r.Covers p) →
          r.Covers g.bounds.lower ∧ r.Covers g.bounds.upper)
    ∧ (g.edgeList = [] → g.bounds = .empty ∧ g.bounds.isEmpty = true) := by
  intro g
  have hrep := (Graph.withQuantum_represents quantum).run ops
  -- the bounds are grown around the endpoints, which are the ends of the listed edges
  have hsame : ∀ p, p ∈ g.endpoints ↔ p ∈ g.ends := fun p => hrep.mem_endpoints
  have hsome : g.edgeList ≠ [] → g.endpoints ≠ [] := mt hrep.endpoints_eq_nil.mp
  refine ⟨?_, hsame, ?_, ?_, ?_⟩
  · intro axis
    exact Rect.sides_expandAll axis g.endpoints
  · intro hne
    exact ⟨hsome hne, Rect.isEmpty_expandAll (hsome hne)⟩
  · intro hne hfinite
    simp only [← hsame] at hfinite ⊢
    exact Rect.least_expandAll (hsome hne) hfinite
  · intro hnil
    have hempty : g.bounds = .empty := by rw [bounds, hrep.endpoints_eq_nil.mpr hnil]; rfl
    rw [hempty]
    exact ⟨rfl, by decide⟩

/-- A diagonal, a line that starts at no number, and a graph that was cleared. -/
theorem bounds_exact_lines :
    let diagonal := (Graph.withQuantum NodeKey.tolerance).run [.addEdge ⟨0, 0⟩ ⟨2, 1⟩]
    let broken := (Graph.withQuantum NodeKey.tolerance).run [.addEdge ⟨0 / 0, 0⟩ ⟨2, 1⟩]
    let cleared := (Graph.withQuantum NodeKey.tolerance).run [.addEdge ⟨0, 0⟩ ⟨2, 1⟩, .clear]
    (diagonal.edgeList = [(⟨0, 0⟩, ⟨2, 1⟩)] ∧ (∀ p ∈ diagonal.ends, p.IsFinite)
      ∧ diagonal.bounds.isEmpty = false ∧ ∀ p ∈ diagonal.ends, diagonal.bounds.Covers p)
    ∧ (broken.endpoints.map (Point.coord .x) = [0 / 0, 2]
      ∧ Extremes [2] broken.bounds.lower.x broken.bounds.upper.x)
    ∧ cleared.edgeList = [] ∧ cleared.bounds = .empty := by
  intro diagonal broken cleared
  have hone : ∀ o d : Point Float,
      ((Graph.withQuantum NodeKey.tolerance).run [.addEdge o d]).nodes = #[⟨o, #[d]⟩] := by
    intro o d
    show ((Graph.withQuantum NodeKey.tolerance).addEdge o d).nodes = _
    rw [Graph.addEdge_of_none _ Std.ExtHashMap.getElem?_empty]
    rfl
  have hedges : diagonal.edgeList = [(⟨0, 0⟩, ⟨2, 1⟩)] := by
    rw [Graph.edgeList, hone]
    rfl
  have hfinite : ∀ p ∈ diagonal.ends, p.IsFinite := by
    rw [Graph.ends, hedges]
    refine List.forall_mem_cons.mpr ⟨⟨by decide, by decide⟩, ?_⟩
    exact List.forall_mem_singleton.mpr ⟨by decide, by decide⟩
  have hends : broken.endpoints.map (Point.coord .x) = [0 / 0, 2] := by
    rw [Graph.endpoints, hone]
    rfl
  obtain ⟨-, -, hsome, hleast, -⟩ := bounds_exact NodeKey.tolerance [.addEdge ⟨0, 0⟩ ⟨2, 1⟩]
  obtain ⟨hsides, -⟩ := bounds_exact NodeKey.tolerance [.addEdge ⟨0 / 0, 0⟩ ⟨2, 1⟩]
  obtain ⟨-, -, -, -, hnone⟩ :=
    bounds_exact NodeKey.tolerance [.addEdge ⟨0, 0⟩ ⟨2, 1⟩, .clear]
  have hne : diagonal.edgeList ≠ [] := by
    rw [hedges]
    exact List.cons_ne_nil _ _
  refine ⟨⟨hedges, hfinite, (hsome hne).2, (hleast hne hfinite).1⟩, ⟨hends, ?_⟩, rfl, (hnone rfl).1⟩
  obtain ⟨before, last, after, hsplit, hlast, -, -, hextremes⟩ :=
    (hsides .x).nan ⟨0 / 0, by rw [hends]; exact List.mem_cons_self .., by decide⟩
  rw [hends] at hsplit
  rcases before with _ | ⟨_, _ | ⟨_, _⟩⟩
  · obtain ⟨-, rfl⟩ := List.cons.inj hsplit
    exact hextremes (List.cons_ne_nil _ _)
  · -- the number after the NaN is not a NaN
    obtain ⟨rfl, -⟩ := List.cons.inj (List.cons.inj hsplit).2
    exact absurd hlast (by decide)
  · simp at hsplit

end Graph

end TurtleGrammar
