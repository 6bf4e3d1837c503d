/-
  Rectangles of the render graph.

  Corners are `i32`, sizes `u32`; edges are computed in `i64`, so that nothing overflows before a size is
  cast back to `u32`.  `Has r p` are the pixels of a rectangle:
    * `has_intersection`, `not_has_of_disjoint` — an intersection has the common pixels;
    * `has_union` — a union has the pixels of both, when its size is a `u32`.
-/
import Mathlib

namespace Folkering.Gfx

/-- `v as u32`. -/
def asU32 (v : Int) : UInt32 := .ofNat (v % 2 ^ 32).toNat

theorem toNat_asU32 {v : Int} (h0 : 0 ≤ v) (h : v < 2 ^ 32) : ((asU32 v).toNat : Int) = v := by
  unfold asU32
  rw [UInt32.toNat_ofNat']
  omega

/-- A rectangle with signed corner and unsigned extent. -/
structure Rect where
  x : Int32
  y : Int32
  w : UInt32
  h : UInt32
deriving Repr, DecidableEq

@[simp] theorem toInt_min (a b : Int32) : (min a b).toInt = min a.toInt b.toInt := by
  show (if a ≤ b then a else b).toInt = _
  simp only [Int32.le_iff_toInt_le]
  split <;> omega

@[simp] theorem toInt_max (a b : Int32) : (max a b).toInt = max a.toInt b.toInt := by
  show (if a ≤ b then b else a).toInt = _
  simp only [Int32.le_iff_toInt_le]
  split <;> omega

namespace Rect

/-- The column behind the rectangle. -/
def right (r : Rect) : Int := r.x.toInt + r.w.toNat

/-- The row behind the rectangle. -/
def bottom (r : Rect) : Int := r.y.toInt + r.h.toNat

/-- The rectangles share a pixel. -/
def overlaps (a b : Rect) : Bool :=
  a.x.toInt < b.right && a.right > b.x.toInt && a.y.toInt < b.bottom && a.bottom > b.y.toInt

/-- The bounding box. -/
def union (a b : Rect) : Rect :=
  let x := min a.x b.x
  let y := min a.y b.y
  { x, y, w := asU32 (max a.right b.right - x.toInt), h := asU32 (max a.bottom b.bottom - y.toInt) }

/-- The common part, if there is one. -/
def intersection (a b : Rect) : Option Rect :=
  if !a.overlaps b then none
  else
    let x := max a.x b.x
    let y := max a.y b.y
    some { x, y, w := asU32 (min a.right b.right - x.toInt), h := asU32 (min a.bottom b.bottom - y.toInt) }

/-! ## Pixels -/

/-- The pixel is in the rectangle. -/
def Has (r : Rect) (p : Int × Int) : Prop :=
  r.x.toInt ≤ p.1 ∧ p.1 < r.right ∧ r.y.toInt ≤ p.2 ∧ p.2 < r.bottom

instance (r : Rect) (p : Int × Int) : Decidable (r.Has p) :=
  inferInstanceAs (Decidable (_ ∧ _ ∧ _ ∧ _))

theorem x_le_right (r : Rect) : r.x.toInt ≤ r.right := by
  unfold right
  omega

theorem y_le_bottom (r : Rect) : r.y.toInt ≤ r.bottom := by
  unfold bottom
  omega

theorem right_lt (r : Rect) : r.right < r.x.toInt + 2 ^ 32 := by
  have := r.w.toNat_lt
  unfold right
  omega

theorem bottom_lt (r : Rect) : r.bottom < r.y.toInt + 2 ^ 32 := by
  have := r.h.toNat_lt
  unfold bottom
  omega

variable {a b c : Rect} {p : Int × Int}

theorem overlaps_iff : a.overlaps b = true ↔
    a.x.toInt < b.right ∧ b.x.toInt < a.right ∧ a.y.toInt < b.bottom ∧ b.y.toInt < a.bottom := by
  simp [overlaps, and_assoc]

theorem intersection_edges (h : a.intersection b = some c) :
    c.x.toInt = max a.x.toInt b.x.toInt ∧ c.right = min a.right b.right ∧
    c.y.toInt = max a.y.toInt b.y.toInt ∧ c.bottom = min a.bottom b.bottom := by
  unfold intersection at h
  split at h
  · cases h
  rename_i hover
  have hover : a.overlaps b = true := by simpa using hover
  obtain ⟨h1, h2, h3, h4⟩ := overlaps_iff.mp hover
  cases h
  have hx := a.x_le_right
  have hx' := b.x_le_right
  have hy := a.y_le_bottom
  have hy' := b.y_le_bottom
  have hr := a.right_lt
  have hb := a.bottom_lt
  have hw := @toNat_asU32 (min a.right b.right - max a.x.toInt b.x.toInt) (by omega) (by omega)
  have hh := @toNat_asU32 (min a.bottom b.bottom - max a.y.toInt b.y.toInt) (by omega) (by omega)
  refine ⟨toInt_max _ _, ?_, toInt_max _ _, ?_⟩
  · rw [right]
    simp only [toInt_max, hw]
    omega
  · rw [bottom]
    simp only [toInt_max, hh]
    omega

theorem has_intersection (h : a.intersection b = some c) : c.Has p ↔ a.Has p ∧ b.Has p := by
  obtain ⟨h1, h2, h3, h4⟩ := intersection_edges h
  unfold Has
  omega

/-- Rectangles that do not overlap have no pixel in common. -/
theorem not_has_of_disjoint (h : a.intersection b = none) (ha : a.Has p) (hb : b.Has p) : False := by
  have hover : ¬ a.overlaps b = true := by
    unfold intersection at h
    split at h
    · rename_i hover
      simpa using hover
    · cases h
  apply hover
  unfold Has at ha hb
  rw [overlaps_iff]
  omega

/-- The edges of a union whose size is a `u32`. -/
theorem union_edges (hw : max a.right b.right - min a.x.toInt b.x.toInt < 2 ^ 32)
    (hh : max a.bottom b.bottom - min a.y.toInt b.y.toInt < 2 ^ 32) :
    (a.union b).x.toInt = min a.x.toInt b.x.toInt ∧ (a.union b).right = max a.right b.right ∧
    (a.union b).y.toInt = min a.y.toInt b.y.toInt ∧ (a.union b).bottom = max a.bottom b.bottom := by
  have hx := a.x_le_right
  have hy := a.y_le_bottom
  have hw' := @toNat_asU32 (max a.right b.right - min a.x.toInt b.x.toInt) (by omega) hw
  have hh' := @toNat_asU32 (max a.bottom b.bottom - min a.y.toInt b.y.toInt) (by omega) hh
  refine ⟨toInt_min _ _, ?_, toInt_min _ _, ?_⟩
  · rw [right]
    simp only [union, toInt_min, hw']
    omega
  · rw [bottom]
    simp only [union, toInt_min, hh']
    omega

/-- The union has the pixels of both. -/
theorem has_union (hw : max a.right b.right - min a.x.toInt b.x.toInt < 2 ^ 32)
    (hh : max a.bottom b.bottom - min a.y.toInt b.y.toInt < 2 ^ 32) (h : a.Has p ∨ b.Has p) :
    (a.union b).Has p := by
  obtain ⟨h1, h2, h3, h4⟩ := union_edges hw hh
  unfold Has at h ⊢
  omega

end Rect

end Folkering.Gfx
