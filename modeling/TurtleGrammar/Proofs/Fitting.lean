import Mathlib.Tactic.Linarith
import TurtleGrammar.Plane.Fit
import TurtleGrammar.Proofs.Bounds

/-! # Fitting — the largest picture that the canvas holds

    A fit moves centre to centre and stretches about it, by one factor for both
    axes.  Written by distances from the centres, a rectangle is a bound on
    each distance (`Rect.contains_iff`), so whether the picture stays inside is
    a question of one inequality for each axis: the factor times the extent of
    the drawing is at most the extent of the canvas.

    The factor is chosen to satisfy both, one of them with equality
    (`scaleFor_limited`).  The equality is what makes it the largest one: on
    that axis the drawing already reaches from side to side. -/

namespace TurtleGrammar

open Scalar (greatest)

/-! ## Transforms that keep the weight -/

namespace Transform

/-- Every image has weight one. -/
def IsAffine (t : Transform ℚ) : Prop := t.toW = ⟨0, 0, 1⟩

theorem isAffine_shift (d : Point ℚ) : (shift d).IsAffine := rfl

theorem isAffine_stretch (sx sy : ℚ) : (stretch sx sy).IsAffine := rfl

/-- A row pulled through an affine map, without the terms that vanish. -/
theorem IsAffine.pullRow_eq {t : Transform ℚ} (h : t.IsAffine) (r : Row ℚ) :
    pullRow r t = ⟨r.x * t.toX.x + r.y * t.toY.x, r.x * t.toX.y + r.y * t.toY.y,
      r.x * t.toX.w + r.y * t.toY.w + r.w⟩ := by
  rw [pullRow, h]
  simp

/-- Affine maps compose to an affine map. -/
theorem IsAffine.mul {s t : Transform ℚ} (hs : s.IsAffine) (ht : t.IsAffine) :
    (s * t).IsAffine := by
  show pullRow s.toW t = _
  rw [ht.pullRow_eq, hs]
  simp

/-- An affine map divides by nothing. -/
theorem IsAffine.apply_eq {t : Transform ℚ} (h : t.IsAffine) (p : Point ℚ) :
    t.apply p = ⟨t.toX.x * p.x + t.toX.y * p.y + t.toX.w,
      t.toY.x * p.x + t.toY.y * p.y + t.toY.w⟩ := by
  rw [apply, h]
  simp

/-- A product acts as its factors do, the right one first. -/
theorem IsAffine.apply_mul {s t : Transform ℚ} (hs : s.IsAffine) (ht : t.IsAffine) (p : Point ℚ) :
    (s * t).apply p = s.apply (t.apply p) := by
  rw [(hs.mul ht).apply_eq, hs.apply_eq, ht.apply_eq]
  show Point.mk ((pullRow s.toX t).x * p.x + (pullRow s.toX t).y * p.y + (pullRow s.toX t).w)
    ((pullRow s.toY t).x * p.x + (pullRow s.toY t).y * p.y + (pullRow s.toY t).w) = _
  rw [ht.pullRow_eq, ht.pullRow_eq]
  congr 1 <;> ring

theorem apply_shift (d p : Point ℚ) : (shift d).apply p = p + d := by
  rw [(isAffine_shift d).apply_eq]
  show Point.mk (1 * p.x + 0 * p.y + d.x) (0 * p.x + 1 * p.y + d.y) = ⟨p.x + d.x, p.y + d.y⟩
  congr 1 <;> ring

theorem apply_stretch (sx sy : ℚ) (p : Point ℚ) :
    (stretch sx sy).apply p = ⟨sx * p.x, sy * p.y⟩ := by
  rw [(isAffine_stretch sx sy).apply_eq]
  show Point.mk (sx * p.x + 0 * p.y + 0) (0 * p.x + sy * p.y + 0) = _
  congr 1 <;> ring

theorem apply_identity_mul (t : Transform ℚ) (ht : t.IsAffine) (p : Point ℚ) :
    (identity * t).apply p = t.apply p := by
  have hidentity : (identity : Transform ℚ).IsAffine := rfl
  rw [hidentity.apply_mul ht, hidentity.apply_eq]
  simp [identity]

end Transform

/-! ## Rectangles by their centres -/

namespace Rect

theorem center_x (r : Rect ℚ) : r.center.x = r.lower.x + r.dims.x / 2 := rfl

theorem center_y (r : Rect ℚ) : r.center.y = r.lower.y + r.dims.y / 2 := rfl

theorem dims_x (r : Rect ℚ) : r.dims.x = r.upper.x - r.lower.x := rfl

theorem dims_y (r : Rect ℚ) : r.dims.y = r.upper.y - r.lower.y := rfl

/-- A point lies in a rectangle when it is at most half its extent away from the centre, on
    each axis. -/
theorem contains_iff {r : Rect ℚ} {p : Point ℚ} :
    r.Contains p ↔ |p.x - r.center.x| ≤ r.dims.x / 2 ∧ |p.y - r.center.y| ≤ r.dims.y / 2 := by
  rw [abs_le, abs_le, center_x, center_y, dims_x, dims_y]
  constructor
  · intro h
    obtain ⟨hleft, hbottom, hright, htop⟩ := h
    exact ⟨⟨by linarith, by linarith⟩, by linarith, by linarith⟩
  · rintro ⟨⟨hleft, hright⟩, hbottom, htop⟩
    exact ⟨by linarith, by linarith, by linarith, by linarith⟩

end Rect

/-! ## The factor -/

namespace Fit

/-- No axis on which the drawing has extent asks for a factor out of range. -/
structure Moderate (content target : Point ℚ) : Prop where
  x : 0 < content.x → target.x / content.x < greatest
  y : 0 < content.y → target.y / content.y < greatest

/-- The factor is as large as the axes with extent allow: both hold, and one is tight. -/
structure Limited (s : ℚ) (content target : Point ℚ) : Prop where
  x : 0 < content.x → s * content.x ≤ target.x
  y : 0 < content.y → s * content.y ≤ target.y
  tight : (0 < content.x ∧ s * content.x = target.x) ∨ (0 < content.y ∧ s * content.y = target.y)

theorem limitBy_of_pos {s c t : ℚ} (hc : 0 < c) : limitBy s c t = min (t / c) s := by
  rw [limitBy, if_pos hc]
  exact (min_def_lt (t / c) s).symm

theorem limitBy_of_not_pos {s c t : ℚ} (hc : ¬ 0 < c) : limitBy s c t = s := if_neg hc

/-- A factor that some axis has lowered is taken as it is. -/
theorem scaleFor_of_lt {content target : Point ℚ} {s : ℚ}
    (hs : limitBy (limitBy greatest content.x target.x) content.y target.y = s)
    (hlt : s < greatest) : scaleFor content target = s := by
  rw [scaleFor, hs]
  exact if_neg (by simpa using hlt.ne)

/-- Without extent no axis has anything to say. -/
theorem scaleFor_of_not_pos {content target : Point ℚ} (hx : ¬ 0 < content.x)
    (hy : ¬ 0 < content.y) : scaleFor content target = 1 := by
  rw [scaleFor, limitBy_of_not_pos hx, limitBy_of_not_pos hy]
  exact if_pos (beq_self_eq_true _)

/-- **With extent the factor is as large as the axes allow.** -/
theorem scaleFor_limited {content target : Point ℚ} (h : Moderate content target)
    (hextent : 0 < content.x ∨ 0 < content.y) :
    Limited (scaleFor content target) content target := by
  by_cases hx : 0 < content.x
  · have hlimit : limitBy greatest content.x target.x = target.x / content.x := by
      rw [limitBy_of_pos hx, min_eq_left (h.x hx).le]
    -- both axes set a limit, and the lesser one is attained
    by_cases hy : 0 < content.y
    · rw [scaleFor_of_lt rfl (by rw [hlimit, limitBy_of_pos hy]; exact min_lt_of_left_lt (h.y hy)),
        hlimit, limitBy_of_pos hy]
      refine ⟨fun _ => ?_, fun _ => ?_, ?_⟩
      · exact (le_div_iff₀ hx).mp (min_le_right ..)
      · exact (le_div_iff₀ hy).mp (min_le_left ..)
      · rcases min_choice (target.y / content.y) (target.x / content.x) with heq | heq
        · rw [heq]
          exact .inr ⟨hy, div_mul_cancel₀ _ hy.ne'⟩
        · rw [heq]
          exact .inl ⟨hx, div_mul_cancel₀ _ hx.ne'⟩
    · rw [scaleFor_of_lt (by rw [limitBy_of_not_pos hy, hlimit]) (h.x hx)]
      have htight := div_mul_cancel₀ target.x hx.ne'
      exact ⟨fun _ => htight.le, fun hpos => absurd hpos hy, .inl ⟨hx, htight⟩⟩
  · -- only the second axis sets a limit
    have hy : 0 < content.y := hextent.resolve_left hx
    have hlimit : limitBy (limitBy greatest content.x target.x) content.y target.y
        = target.y / content.y := by
      rw [limitBy_of_not_pos hx, limitBy_of_pos hy, min_eq_left (h.y hy).le]
    rw [scaleFor_of_lt hlimit (h.y hy)]
    have htight := div_mul_cancel₀ target.y hy.ne'
    exact ⟨fun hpos => absurd hpos hx, fun _ => htight.le, .inr ⟨hy, htight⟩⟩

/-- A limited scale is not negative if the target has no negative extent. -/
theorem Limited.nonneg {s : ℚ} {content target : Point ℚ} (h : Limited s content target)
    (hx : 0 ≤ target.x) (hy : 0 ≤ target.y) : 0 ≤ s := by
  rcases h.tight with ⟨hpos, heq⟩ | ⟨hpos, heq⟩
  · exact nonneg_of_mul_nonneg_left (heq ▸ hx) hpos
  · exact nonneg_of_mul_nonneg_left (heq ▸ hy) hpos

theorem scaleFor_nonneg {content target : Point ℚ} (h : Moderate content target)
    (hx : 0 ≤ target.x) (hy : 0 ≤ target.y) : 0 ≤ scaleFor content target := by
  by_cases hextent : 0 < content.x ∨ 0 < content.y
  · exact (scaleFor_limited h hextent).nonneg hx hy
  · obtain ⟨hcx, hcy⟩ := not_or.mp hextent
    rw [scaleFor_of_not_pos hcx hcy]
    exact zero_le_one

/-- The picture fits on both axes, also where the drawing has no extent. -/
theorem scaleFor_mul_le {content target : Point ℚ} (h : Moderate content target)
    (hx : 0 ≤ target.x) (hy : 0 ≤ target.y) :
    scaleFor content target * content.x ≤ target.x
      ∧ scaleFor content target * content.y ≤ target.y := by
  have hs : 0 ≤ scaleFor content target := scaleFor_nonneg h hx hy
  constructor
  · by_cases hpos : 0 < content.x
    · exact (scaleFor_limited h (.inl hpos)).x hpos
    · exact (mul_nonpos_of_nonneg_of_nonpos hs (not_lt.mp hpos)).trans hx
  · by_cases hpos : 0 < content.y
    · exact (scaleFor_limited h (.inr hpos)).y hpos
    · exact (mul_nonpos_of_nonneg_of_nonpos hs (not_lt.mp hpos)).trans hy

end Fit

/-! ## The fit -/

/-- The sign with which vertical differences arrive. -/
def YAxis.sign : YAxis → ℚ
  | .up => 1
  | .down => -1

/-- Turning the axis over changes no length. -/
theorem YAxis.abs_sign (axis : YAxis) : |axis.sign| = 1 := by
  cases axis with
  | up => exact abs_one
  | down => exact (abs_neg 1).trans abs_one

/-- Some of the points land on the near side and some on the far side, in one coordinate. -/
def Spans (image : Point ℚ → ℚ) (points : Set (Point ℚ)) (near far : ℚ) : Prop :=
  (∃ p ∈ points, image p = near) ∧ ∃ p ∈ points, image p = far

/-- Along an axis that is stretched and shifted, the points span the image of what they spanned. -/
theorem Spans.affine {f image : Point ℚ → ℚ} {points : Set (Point ℚ)} {near far s t : ℚ}
    (h : Spans f points near far) (himage : ∀ p, image p = s * f p + t) :
    Spans image points (s * near + t) (s * far + t) := by
  obtain ⟨⟨p, hp, hnear⟩, ⟨q, hq, hfar⟩⟩ := h
  refine ⟨⟨p, hp, ?_⟩, ⟨q, hq, ?_⟩⟩
  · rw [himage, hnear]
  · rw [himage, hfar]

/-- Measured from its centre, a drawing reaches half its extent either way. -/
theorem Rect.Bounds.spans_x {r : Rect ℚ} {points : Set (Point ℚ)} (h : r.Bounds points) :
    Spans (fun p => p.x - r.center.x) points (-(r.dims.x / 2)) (r.dims.x / 2) := by
  obtain ⟨p, hp, hleft⟩ := h.left.1
  obtain ⟨q, hq, hright⟩ := h.right.1
  refine ⟨⟨p, hp, ?_⟩, ⟨q, hq, ?_⟩⟩
  · show p.x - r.center.x = _
    rw [hleft, r.center_x]
    ring
  · show q.x - r.center.x = _
    rw [hright, r.center_x, r.dims_x]
    ring

/-- It does so on the vertical axis as well, and also when it is turned over: then the near
    side is the upper one. -/
theorem Rect.Bounds.spans_y {r : Rect ℚ} {points : Set (Point ℚ)} (h : r.Bounds points)
    (axis : YAxis) :
    Spans (fun p => axis.sign * (p.y - r.center.y)) points (-(r.dims.y / 2)) (r.dims.y / 2) := by
  obtain ⟨p, hp, hbottom⟩ := h.bottom.1
  obtain ⟨q, hq, htop⟩ := h.top.1
  have hlower : p.y - r.center.y = -(r.dims.y / 2) := by
    rw [hbottom, r.center_y]
    ring
  have hupper : q.y - r.center.y = r.dims.y / 2 := by
    rw [htop, r.center_y, r.dims_y]
    ring
  -- turned over, the two ends change places
  cases axis with
  | up =>
      refine ⟨⟨p, hp, ?_⟩, ⟨q, hq, ?_⟩⟩
      · exact (one_mul _).trans hlower
      · exact (one_mul _).trans hupper
  | down =>
      refine ⟨⟨q, hq, ?_⟩, ⟨p, hp, ?_⟩⟩
      · exact (neg_one_mul _).trans (congrArg Neg.neg hupper)
      · exact (neg_one_mul _).trans ((congrArg Neg.neg hlower).trans (neg_neg _))

namespace Fit

/-- What is expected of a fit of points with the bounding rectangle `content`. -/
structure Fits (content target : Rect ℚ) (axis : YAxis) (points : Set (Point ℚ)) (f : Fit ℚ) :
    Prop where
  center : f.transform.apply content.center = target.center
  inside : ∀ p ∈ points, target.Contains (f.transform.apply p)
  /-- Horizontal differences are scaled. -/
  along_x : ∀ p q, (f.transform.apply p).x - (f.transform.apply q).x = f.scale * (p.x - q.x)
  /-- Vertical differences are scaled, and turned over when the axis points down. -/
  along_y : ∀ p q, (f.transform.apply p).y - (f.transform.apply q).y
    = axis.sign * f.scale * (p.y - q.y)
  /-- With extent on some axis, the picture reaches from side to side on one. -/
  touches : 0 < content.dims.x ∨ 0 < content.dims.y →
    (0 < content.dims.x
      ∧ Spans (fun p => (f.transform.apply p).x) points target.lower.x target.upper.x)
    ∨ (0 < content.dims.y
      ∧ Spans (fun p => (f.transform.apply p).y) points target.lower.y target.upper.y)
  /-- And no greater factor keeps the points inside, wherever they are moved. -/
  largest : 0 < content.dims.x ∨ 0 < content.dims.y → ∀ (k : ℚ) (d : Point ℚ),
    (∀ p ∈ points, target.Contains ⟨k * p.x + d.x, axis.sign * k * p.y + d.y⟩) → k ≤ f.scale
  /-- Without extent nothing is scaled. -/
  unscaled : ¬ 0 < content.dims.x → ¬ 0 < content.dims.y → f.scale = 1

section OfRects

variable {content target : Rect ℚ} {axis : YAxis}

/-- A content that is not empty is moved to the origin, scaled, and moved to the target's center. -/
theorem ofRects_eq (h : content.isEmpty = false) :
    ofRects content target axis
      = ⟨.shift target.center
          * .stretch (scaleFor content.dims target.dims)
              (scaleFor content.dims target.dims * axis.sign)
          * .shift (-content.center), scaleFor content.dims target.dims⟩ := by
  unfold ofRects
  rw [h]
  cases axis <;> rfl

theorem scale_ofRects (h : content.isEmpty = false) :
    (ofRects content target axis).scale = scaleFor content.dims target.dims := by
  rw [ofRects_eq h]

/-- A fit scales the displacement from the centre and moves the centre. -/
theorem apply_ofRects (h : content.isEmpty = false) (p : Point ℚ) :
    (ofRects content target axis).transform.apply p
      = ⟨(ofRects content target axis).scale * (p.x - content.center.x) + target.center.x,
        axis.sign * (ofRects content target axis).scale * (p.y - content.center.y)
          + target.center.y⟩ := by
  rw [ofRects_eq h]
  generalize scaleFor content.dims target.dims = s
  have hstretch : (Transform.shift target.center * .stretch s (s * axis.sign)).IsAffine :=
    (Transform.isAffine_shift _).mul (Transform.isAffine_stretch ..)
  rw [hstretch.apply_mul (Transform.isAffine_shift _),
    (Transform.isAffine_shift _).apply_mul (Transform.isAffine_stretch ..), Transform.apply_shift,
    Transform.apply_stretch, Transform.apply_shift]
  show Point.mk (s * (p.x + -content.center.x) + target.center.x)
    (s * axis.sign * (p.y + -content.center.y) + target.center.y) = _
  congr 1 <;> ring

/-- An empty content is not scaled. -/
theorem ofRects_of_isEmpty (h : content.isEmpty = true) :
    ofRects content target axis = ⟨.identity * .shift target.center, 1⟩ := by
  unfold ofRects
  rw [h]
  rfl

/-- With nothing to fit, points are moved by the centre of the target. -/
theorem apply_ofRects_of_isEmpty (h : content.isEmpty = true) (p : Point ℚ) :
    (ofRects content target axis).transform.apply p = p + target.center := by
  rw [ofRects_of_isEmpty h, Transform.apply_identity_mul _ (Transform.isAffine_shift _),
    Transform.apply_shift]

/-! ## What the fit does -/

/-- The centers fall on each other. -/
theorem center_ofRects (h : content.isEmpty = false) :
    (ofRects content target axis).transform.apply content.center = target.center := by
  rw [apply_ofRects h]
  show Point.mk _ _ = Point.mk target.center.x target.center.y
  congr 1 <;> ring

/-- A distance from the centre that is scaled stays within half the extent of the target. -/
theorem abs_mul_le_half {s d c t : ℚ} (hs : 0 ≤ s) (hd : |d| ≤ c / 2) (hfit : s * c ≤ t) :
    |s * d| ≤ t / 2 := by
  calc |s * d| = s * |d| := by rw [abs_mul, abs_of_nonneg hs]
    _ ≤ s * (c / 2) := by gcongr
    _ = s * c / 2 := by ring
    _ ≤ t / 2 := by gcongr

/-- What lies in the content is drawn inside the target. -/
theorem inside_ofRects (h : content.isEmpty = false) (hm : Moderate content.dims target.dims)
    (hx : 0 ≤ target.dims.x) (hy : 0 ≤ target.dims.y) {p : Point ℚ} (hp : content.Contains p) :
    target.Contains ((ofRects content target axis).transform.apply p) := by
  have hs : 0 ≤ scaleFor content.dims target.dims := scaleFor_nonneg hm hx hy
  obtain ⟨hfitx, hfity⟩ := scaleFor_mul_le hm hx hy
  obtain ⟨hpx, hpy⟩ := Rect.contains_iff.mp hp
  rw [Rect.contains_iff, apply_ofRects h, scale_ofRects h]
  constructor
  · rw [add_sub_cancel_right]
    exact abs_mul_le_half hs hpx hfitx
  · rw [add_sub_cancel_right, mul_assoc, abs_mul, axis.abs_sign, one_mul]
    exact abs_mul_le_half hs hpy hfity

/-- Where the extents match, the picture reaches from side to side. -/
theorem spans_x {points : Set (Point ℚ)} (hb : content.Bounds points)
    (htight : scaleFor content.dims target.dims * content.dims.x = target.dims.x) :
    Spans (fun p => ((ofRects content target axis).transform.apply p).x) points
      target.lower.x target.upper.x := by
  have himage : ∀ p, ((ofRects content target axis).transform.apply p).x
      = scaleFor content.dims target.dims * (p.x - content.center.x) + target.center.x := by
    intro p
    rw [apply_ofRects hb.isEmpty, scale_ofRects hb.isEmpty]
  have hnear : target.lower.x
      = scaleFor content.dims target.dims * -(content.dims.x / 2) + target.center.x := by
    linarith [target.center_x]
  have hfar : target.upper.x
      = scaleFor content.dims target.dims * (content.dims.x / 2) + target.center.x := by
    linarith [target.center_x, target.dims_x]
  rw [hnear, hfar]
  exact hb.spans_x.affine himage

/-- The same for the other axis, whichever way it points. -/
theorem spans_y {points : Set (Point ℚ)} (hb : content.Bounds points)
    (htight : scaleFor content.dims target.dims * content.dims.y = target.dims.y) :
    Spans (fun p => ((ofRects content target axis).transform.apply p).y) points
      target.lower.y target.upper.y := by
  have himage : ∀ p, ((ofRects content target axis).transform.apply p).y
      = scaleFor content.dims target.dims * (axis.sign * (p.y - content.center.y))
        + target.center.y := by
    intro p
    rw [apply_ofRects hb.isEmpty, scale_ofRects hb.isEmpty, mul_left_comm, ← mul_assoc]
  have hnear : target.lower.y
      = scaleFor content.dims target.dims * -(content.dims.y / 2) + target.center.y := by
    linarith [target.center_y]
  have hfar : target.upper.y
      = scaleFor content.dims target.dims * (content.dims.y / 2) + target.center.y := by
    linarith [target.center_y, target.dims_y]
  rw [hnear, hfar]
  exact (hb.spans_y axis).affine himage

/-- **With extent the picture touches two opposite sides.** -/
theorem touches_ofRects {points : Set (Point ℚ)} (hb : content.Bounds points)
    (hm : Moderate content.dims target.dims)
    (hextent : 0 < content.dims.x ∨ 0 < content.dims.y) :
    (0 < content.dims.x
      ∧ Spans (fun p => ((ofRects content target axis).transform.apply p).x) points
        target.lower.x target.upper.x)
    ∨ (0 < content.dims.y
      ∧ Spans (fun p => ((ofRects content target axis).transform.apply p).y) points
        target.lower.y target.upper.y) := by
  rcases (scaleFor_limited hm hextent).tight with ⟨hpos, htight⟩ | ⟨hpos, htight⟩
  · exact .inl ⟨hpos, spans_x hb htight⟩
  · exact .inr ⟨hpos, spans_y hb htight⟩

/-- **With extent no greater factor keeps the picture inside.**  The axis on which the factor
    is tight has two points as far apart as the target is wide. -/
theorem le_scaleFor {points : Set (Point ℚ)} (hb : content.Bounds points)
    (hm : Moderate content.dims target.dims)
    (hextent : 0 < content.dims.x ∨ 0 < content.dims.y) {k : ℚ} {d : Point ℚ}
    (hk : ∀ p ∈ points, target.Contains ⟨k * p.x + d.x, axis.sign * k * p.y + d.y⟩) :
    k ≤ scaleFor content.dims target.dims := by
  rcases (scaleFor_limited hm hextent).tight with ⟨hpos, htight⟩ | ⟨hpos, htight⟩
  · -- two points that lie the whole extent apart, along the axis that is tight
    obtain ⟨⟨p, hp, hnear⟩, ⟨q, hq, hfar⟩⟩ := hb.spans_x
    have hextent : content.dims.x = q.x - p.x := by linarith
    refine le_of_mul_le_mul_right ?_ hpos
    calc k * content.dims.x = k * q.x + d.x - (k * p.x + d.x) := by rw [hextent]; ring
      _ ≤ target.upper.x - target.lower.x := sub_le_sub (hk q hq).right (hk p hp).left
      _ = scaleFor content.dims target.dims * content.dims.x := htight.symm
  · obtain ⟨⟨p, hp, hnear⟩, ⟨q, hq, hfar⟩⟩ := hb.spans_y axis
    have hextent : content.dims.y = axis.sign * q.y - axis.sign * p.y := by linarith
    refine le_of_mul_le_mul_right ?_ hpos
    calc k * content.dims.y = axis.sign * k * q.y + d.y - (axis.sign * k * p.y + d.y) := by
          rw [hextent]; ring
      _ ≤ target.upper.y - target.lower.y := sub_le_sub (hk q hq).top (hk p hp).bottom
      _ = scaleFor content.dims target.dims * content.dims.y := htight.symm

/-- The fit of points by their bounding rectangle is what is expected. -/
theorem fits_ofRects {points : Set (Point ℚ)} (hb : content.Bounds points)
    (hx : target.lower.x ≤ target.upper.x) (hy : target.lower.y ≤ target.upper.y)
    (hm : Moderate content.dims target.dims) :
    Fits content target axis points (ofRects content target axis) where
  center := center_ofRects hb.isEmpty
  inside := fun p hp =>
    inside_ofRects hb.isEmpty hm (sub_nonneg.mpr hx) (sub_nonneg.mpr hy) (hb.contains hp)
  along_x := by
    intro p q
    rw [apply_ofRects hb.isEmpty, apply_ofRects hb.isEmpty]
    show _ * _ + _ - (_ * _ + _) = _
    ring
  along_y := by
    intro p q
    rw [apply_ofRects hb.isEmpty, apply_ofRects hb.isEmpty]
    show _ * _ + _ - (_ * _ + _) = _
    ring
  touches := touches_ofRects hb hm
  largest := by
    intro hextent k d hk
    rw [scale_ofRects hb.isEmpty]
    exact le_scaleFor hb hm hextent hk
  unscaled := by
    intro hcx hcy
    rw [scale_ofRects hb.isEmpty, scaleFor_of_not_pos hcx hcy]

end OfRects

/-- **Drawings fit their canvas.**  Whatever was done to a graph that started empty, if it
    has edges and all their ends are finite, then its bounds are the rectangle around them,
    and they fit every target that is the right way round and does not ask for a factor out
    of range.  With nothing to fit, points are moved by the centre of the target. -/
theorem ofRects_fits_edges (target : Rect ℚ) (axis : YAxis) :
    (∀ (quantum : Float) (ops : List (GraphOp Float)),
      let g := (Graph.withQuantum quantum).run ops
      let points := {p | p ∈ g.ends.map Point.toRat}
      g.edgeList ≠ [] → (∀ p ∈ g.ends, p.IsFinite) →
      target.lower.x ≤ target.upper.x → target.lower.y ≤ target.upper.y →
      Moderate g.bounds.toRat.dims target.dims →
      g.bounds.toRat.Bounds points
        ∧ Fits g.bounds.toRat target axis points (ofRects g.bounds.toRat target axis))
    ∧ ∀ content : Rect ℚ, content.isEmpty = true →
      (ofRects content target axis).scale = 1
        ∧ ∀ p, (ofRects content target axis).transform.apply p = p + target.center := by
  refine ⟨?_, ?_⟩
  · intro quantum ops g points hne hfinite hx hy hm
    have hrep := (Graph.withQuantum_represents quantum).run ops
    have hbounds : g.bounds.toRat.Bounds points := hrep.bounds_toRat hne hfinite
    exact ⟨hbounds, fits_ofRects hbounds hx hy hm⟩
  · intro content hempty
    exact ⟨congrArg Fit.scale (ofRects_of_isEmpty hempty), apply_ofRects_of_isEmpty hempty⟩

/-- A diagonal of two by one on a canvas of a hundred by eighty, and nothing on the same
    canvas. -/
theorem ofRects_fits_edges_diagonal :
    let g := (Graph.withQuantum NodeKey.tolerance).run [.addEdge ⟨0, 0⟩ ⟨2, 1⟩]
    let target : Rect ℚ := ⟨⟨0, 0⟩, ⟨100, 80⟩⟩
    (g.edgeList = [(⟨0, 0⟩, ⟨2, 1⟩)] ∧ (∀ p ∈ g.ends, p.IsFinite)
      ∧ Moderate g.bounds.toRat.dims target.dims
      ∧ Fits g.bounds.toRat target .down {p | p ∈ g.ends.map Point.toRat}
        (ofRects g.bounds.toRat target .down))
    ∧ (Rect.empty : Rect ℚ).isEmpty = true ∧ (ofRects Rect.empty target .down).scale = 1 := by
  intro g target
  have hnodes : g.nodes = #[⟨⟨0, 0⟩, #[⟨2, 1⟩]⟩] := by
    show ((Graph.withQuantum NodeKey.tolerance).addEdge ⟨0, 0⟩ ⟨2, 1⟩).nodes = _
    rw [Graph.addEdge_of_none _ Std.ExtHashMap.getElem?_empty]
    rfl
  have hedges : g.edgeList = [(⟨0, 0⟩, ⟨2, 1⟩)] := by
    rw [Graph.edgeList, hnodes]
    rfl
  have hfinite : ∀ p ∈ g.ends, p.IsFinite := by
    rw [Graph.ends, hedges]
    refine List.forall_mem_cons.mpr ⟨⟨by decide, by decide⟩, ?_⟩
    exact List.forall_mem_singleton.mpr ⟨by decide, by decide⟩
  have hbounds : g.bounds.toRat = ⟨⟨0, 0⟩, ⟨2, 1⟩⟩ := by
    -- the two coordinates that are not zero, as the format has them
    have htwo : Scalar.toRat 2 = 2 := by
      show ((2 ^ 52 : ℕ) : ℚ) * 2 ^ (-51 : ℤ) = 2
      norm_num
    have hone : Scalar.toRat 1 = 1 := by
      show ((2 ^ 52 : ℕ) : ℚ) * 2 ^ (-52 : ℤ) = 1
      norm_num
    rw [Graph.bounds, Graph.endpoints, hnodes]
    show Rect.mk ⟨0, 0⟩ ⟨Scalar.toRat 2, Scalar.toRat 1⟩ = _
    rw [htwo, hone]
  have hempty : (Rect.empty : Rect ℚ).isEmpty = true := by decide +kernel
  have hmoderate : Moderate g.bounds.toRat.dims target.dims := by
    rw [hbounds]
    exact ⟨fun _ => by decide +kernel, fun _ => by decide +kernel⟩
  obtain ⟨hfits, hnothing⟩ := ofRects_fits_edges target .down
  refine ⟨⟨hedges, hfinite, hmoderate, ?_⟩, hempty, (hnothing Rect.empty hempty).1⟩
  refine (hfits NodeKey.tolerance [.addEdge ⟨0, 0⟩ ⟨2, 1⟩] ?_ hfinite ?_ ?_ hmoderate).2
  · exact List.ne_nil_of_mem (hedges ▸ List.mem_singleton_self _)
  · decide +kernel
  · decide +kernel

end Fit

end TurtleGrammar
