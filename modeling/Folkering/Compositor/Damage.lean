/-
  The damage tracker of the compositor.

  A new rectangle is clamped to the screen and swallows the regions it meets, one at a time; after each union the search
  starts again from the first region, since the union may meet one that was passed before.  The loop ends as every union
  takes a region away.  What is kept through it (`absorb_spec`):
    * the regions left are some of those before, so they stay apart;
    * those the search has passed do not meet the rectangle as it is now;
    * the rectangle and the regions left cover what they covered (`Coarser`).
-/
import Folkering.Lib.Merging

namespace Folkering.Damage

open Merging List

/-- More regions than this are collapsed into one. -/
def maxRects : Nat := 10

/-- A rectangle of pixels. -/
structure Rect where
  x : UInt32
  y : UInt32
  w : UInt32
  h : UInt32
deriving Repr, DecidableEq

namespace Rect

/-- The rectangles share a pixel, in 32-bit arithmetic. -/
def intersects (a b : Rect) : Bool := a.x < b.x + b.w && a.x + a.w > b.x && a.y < b.y + b.h && a.y + a.h > b.y

/-- The bounding box of two rectangles. -/
def union (a b : Rect) : Rect :=
  let x := min a.x b.x
  let y := min a.y b.y
  { x, y, w := max (a.x + a.w) (b.x + b.w) - x, h := max (a.y + a.h) (b.y + b.h) - y }

end Rect

/-- The regions to redraw, and the screen. -/
structure DamageTracker where
  regions : List Rect
  screenW : UInt32
  screenH : UInt32

/-- The loop of `add_damage`. -/
def absorb (regions : List Rect) (i : Nat) (merged : Rect) : List Rect × Rect :=
  if h : i < regions.length then
    if regions[i].intersects merged then absorb (swapRemove regions i) 0 (regions[i].union merged)
    else absorb regions (i + 1) merged
  else (regions, merged)
termination_by (regions.length, regions.length - i)
decreasing_by
  · have := swapRemove_length h
    exact Prod.Lex.left _ _ (by omega)
  · exact Prod.Lex.right _ (by omega)

namespace DamageTracker

/-- All regions become their bounding box. -/
def collapseToBoundingBox (t : DamageTracker) : DamageTracker :=
  match t.regions with
  | [] => t
  | r :: rs => { t with regions := [rs.foldl Rect.union r] }

/-- Record a rectangle, clamped to the screen and joined with what it meets. -/
def addDamage (t : DamageTracker) (newRect : Rect) : DamageTracker :=
  let x := min newRect.x t.screenW
  let y := min newRect.y t.screenH
  let w := min newRect.w (t.screenW - x)
  let h := min newRect.h (t.screenH - y)
  if w = 0 ∨ h = 0 then t
  else
    let (regions, merged) := absorb t.regions 0 ⟨x, y, w, h⟩
    let t := { t with regions := regions ++ [merged] }
    if t.regions.length > maxRects then t.collapseToBoundingBox else t

/-- The whole screen is to be redrawn. -/
def damageFull (t : DamageTracker) : DamageTracker := { t with regions := [⟨0, 0, t.screenW, t.screenH⟩] }

/-- Nothing is left to redraw. -/
def clear (t : DamageTracker) : DamageTracker := { t with regions := [] }

end DamageTracker

/-! ## Pixels -/

/-- The pixel is in the rectangle. -/
def Rect.Has (r : Rect) (p : Nat × Nat) : Prop :=
  (r.x.toNat ≤ p.1 ∧ p.1 < r.x.toNat + r.w.toNat) ∧ r.y.toNat ≤ p.2 ∧ p.2 < r.y.toNat + r.h.toNat

/-- The rectangle lies on a screen of the given size. -/
structure Rect.OnScreen (w h : UInt32) (r : Rect) : Prop where
  right : r.x.toNat + r.w.toNat ≤ w.toNat
  bottom : r.y.toNat + r.h.toNat ≤ h.toNat

section

variable {w h : UInt32} {a b : Rect}

/-- On the screen the edges do not wrap. -/
theorem Rect.OnScreen.edges (ha : a.OnScreen w h) :
    (a.x + a.w).toNat = a.x.toNat + a.w.toNat ∧ (a.y + a.h).toNat = a.y.toNat + a.h.toNat := by
  have hw := w.toNat_lt
  have hh := h.toNat_lt
  have h₁ := ha.right
  have h₂ := ha.bottom
  rw [UInt32.toNat_add, UInt32.toNat_add, Nat.mod_eq_of_lt (by omega), Nat.mod_eq_of_lt (by omega)]
  exact ⟨rfl, rfl⟩

/-- The test, as a fact about the edges. -/
theorem intersects_iff (ha : a.OnScreen w h) (hb : b.OnScreen w h) : a.intersects b = true ↔
    (a.x.toNat < b.x.toNat + b.w.toNat ∧ b.x.toNat < a.x.toNat + a.w.toNat) ∧
      a.y.toNat < b.y.toNat + b.h.toNat ∧ b.y.toNat < a.y.toNat + a.h.toNat := by
  obtain ⟨hax, hay⟩ := ha.edges
  obtain ⟨hbx, hby⟩ := hb.edges
  simp only [Rect.intersects, Bool.and_eq_true, decide_eq_true_eq, gt_iff_lt, UInt32.lt_iff_toNat_lt, hax, hay, hbx, hby,
    and_assoc]

/-- The edges of the bounding box. -/
theorem union_edges (ha : a.OnScreen w h) (hb : b.OnScreen w h) :
    ((a.union b).x.toNat = min a.x.toNat b.x.toNat ∧
      (a.union b).x.toNat + (a.union b).w.toNat = max (a.x.toNat + a.w.toNat) (b.x.toNat + b.w.toNat)) ∧
    (a.union b).y.toNat = min a.y.toNat b.y.toNat ∧
      (a.union b).y.toNat + (a.union b).h.toNat = max (a.y.toNat + a.h.toNat) (b.y.toNat + b.h.toNat) := by
  obtain ⟨hax, hay⟩ := ha.edges
  obtain ⟨hbx, hby⟩ := hb.edges
  have hx : (min a.x b.x).toNat ≤ (max (a.x + a.w) (b.x + b.w)).toNat := by
    rw [UInt32.toNat_min, UInt32.toNat_max, hax, hbx]
    omega
  have hy : (min a.y b.y).toNat ≤ (max (a.y + a.h) (b.y + b.h)).toNat := by
    rw [UInt32.toNat_min, UInt32.toNat_max, hay, hby]
    omega
  have hw := UInt32.toNat_sub_of_le _ _ (UInt32.le_iff_toNat_le.mpr hx)
  have hh := UInt32.toNat_sub_of_le _ _ (UInt32.le_iff_toNat_le.mpr hy)
  simp only [Rect.union, hw, hh, UInt32.toNat_min, UInt32.toNat_max, hax, hay, hbx, hby, true_and]
  exact ⟨by omega, by omega⟩

end

/-- The rectangles on a screen, with their pixels. -/
def onScreen (w h : UInt32) : Shapes Rect (Nat × Nat) where
  good := Rect.OnScreen w h
  has := Rect.Has
  join := Rect.union
  good_join ha hb := by
    have h₁ := ha.right
    have h₂ := ha.bottom
    have h₃ := hb.right
    have h₄ := hb.bottom
    obtain ⟨⟨-, hx⟩, -, hy⟩ := union_edges ha hb
    exact ⟨by omega, by omega⟩
  has_join ha hb hp := by
    obtain ⟨⟨hx, hx'⟩, hy, hy'⟩ := union_edges ha hb
    unfold Rect.Has at hp ⊢
    omega

/-- No pixel is in both. -/
def Apart (a b : Rect) : Prop := ∀ p, ¬ (a.Has p ∧ b.Has p)

theorem Apart.symm {a b : Rect} (h : Apart a b) : Apart b a := fun p hp => h p hp.symm

section

variable {w h : UInt32}

/-- The test finds every common pixel. -/
theorem apart_of_not_intersects {a b : Rect} (ha : a.OnScreen w h) (hb : b.OnScreen w h)
    (hab : a.intersects b = false) : Apart a b := by
  rintro p ⟨hpa, hpb⟩
  have hmeet : a.intersects b = true := by
    rw [intersects_iff ha hb]
    unfold Rect.Has at hpa hpb
    omega
  rw [hmeet] at hab
  cases hab

/-- What is kept by the regions of a tracker. -/
structure Tracks (w h : UInt32) (regions : List Rect) : Prop where
  good : ∀ r ∈ regions, r.OnScreen w h
  apart : regions.Pairwise Apart

theorem Tracks.perm_cons {regions rest : List Rect} {r : Rect} (ht : Tracks w h regions)
    (hp : regions.Perm (r :: rest)) : Tracks w h rest := by
  have happart := (hp.pairwise_iff fun hab => hab.symm).mp ht.apart
  refine ⟨fun r' hr' => ht.good r' (hp.mem_iff.mpr (mem_cons_of_mem _ hr')), (pairwise_cons.mp happart).2⟩

/-- The loop: the regions left are apart from the rectangle that swallowed the others. -/
theorem absorb_spec (regions : List Rect) (i : Nat) (merged : Rect) (ht : Tracks w h regions)
    (hm : merged.OnScreen w h) (hpassed : ∀ r ∈ regions.take i, Apart r merged) :
    Tracks w h ((absorb regions i merged).1 ++ [(absorb regions i merged).2]) ∧
      Coarser (onScreen w h) (merged :: regions) ((absorb regions i merged).1 ++ [(absorb regions i merged).2]) := by
  induction regions, i, merged using absorb.induct with
  | case1 regions i merged hlt hmeet ih =>
    rw [absorb, dif_pos hlt, if_pos hmeet]
    have hperm := swapRemove_perm hlt
    have hr := ht.good _ (getElem_mem hlt)
    have hjoin := (onScreen w h).good_join hr hm
    obtain ⟨htracks, hcoarser⟩ := ih (ht.perm_cons hperm) hjoin (by simp)
    refine ⟨htracks, Coarser.trans ?_ hcoarser⟩
    exact Coarser.join ((hperm.cons merged).trans (List.Perm.swap _ _ _)) (List.Perm.refl _)
  | case2 regions i merged hlt hmeet ih =>
    rw [absorb, dif_pos hlt, if_neg hmeet]
    refine ih ht hm fun r hr => ?_
    rw [take_succ_eq_append_getElem hlt] at hr
    rcases mem_append.mp hr with hr | hr
    · exact hpassed r hr
    · rw [mem_singleton.mp hr]
      exact apart_of_not_intersects (ht.good _ (getElem_mem hlt)) hm (Bool.eq_false_iff.mpr hmeet)
  | case3 regions i merged hge =>
    rw [absorb, dif_neg hge]
    rw [take_of_length_le (by omega)] at hpassed
    refine ⟨⟨?_, ?_⟩, Coarser.of_perm (perm_append_singleton merged regions).symm⟩
    · intro r hr
      rcases mem_append.mp hr with hr | hr
      · exact ht.good r hr
      · rw [mem_singleton.mp hr]
        exact hm
    · refine pairwise_append.mpr ⟨ht.apart, pairwise_singleton _ _, fun r hr r' hr' => ?_⟩
      rw [mem_singleton.mp hr']
      exact hpassed r hr

end

/-! ## Calls -/

/-- The calls that record damage. -/
inductive Call where
  | addDamage (rect : Rect)
  | damageFull

/-- One call. -/
def Call.run (t : DamageTracker) : Call → DamageTracker
  | .addDamage rect => t.addDamage rect
  | .damageFull => t.damageFull

/-- The pixels a call is about. -/
def Call.Has (w h : UInt32) : Call → Nat × Nat → Prop
  | .addDamage rect, p => rect.Has p
  | .damageFull, p => p.1 < w.toNat ∧ p.2 < h.toNat

/-- The invariant, with the pixels that have to be covered. -/
structure Inv (w h : UInt32) (t : DamageTracker) (due : Nat × Nat → Prop) : Prop where
  width : t.screenW = w
  height : t.screenH = h
  few : t.regions.length ≤ maxRects
  tracks : Tracks w h t.regions
  covers : ∀ p, due p → p.1 < w.toNat → p.2 < h.toNat → ∃ r ∈ t.regions, r.Has p

section

variable {w h : UInt32} {t : DamageTracker} {due : Nat × Nat → Prop}

/-- A non-empty collection becomes its bounding box. -/
theorem Inv.collapse {regions : List Rect} (hw : t.screenW = w) (hh : t.screenH = h) (hne : regions ≠ [])
    (ht : Tracks w h regions) (hc : ∀ p, due p → p.1 < w.toNat → p.2 < h.toNat → ∃ r ∈ regions, r.Has p) :
    Inv w h ({ t with regions } : DamageTracker).collapseToBoundingBox due := by
  cases regions with
  | nil => exact absurd rfl hne
  | cons r rs =>
    obtain ⟨hgood, hcover⟩ := Coarser.collapse (S := onScreen w h) r rs ht.good
    refine ⟨hw, hh, show 1 ≤ 10 by decide, ⟨hgood, pairwise_singleton _ _⟩, fun p hp hx hy => ?_⟩
    exact hcover p (hc p hp hx hy)

/-- The step lemma for a rectangle. -/
theorem Inv.addDamage (hi : Inv w h t due) (rect : Rect) :
    Inv w h (t.addDamage rect) fun p => due p ∨ rect.Has p := by
  obtain ⟨rfl, rfl, hfew, ht, hc⟩ := hi
  have hx : (t.screenW - min rect.x t.screenW).toNat = t.screenW.toNat - min rect.x.toNat t.screenW.toNat := by
    rw [UInt32.toNat_sub_of_le _ _ (UInt32.le_iff_toNat_le.mpr (by rw [UInt32.toNat_min]; omega)), UInt32.toNat_min]
  have hy : (t.screenH - min rect.y t.screenH).toNat = t.screenH.toNat - min rect.y.toNat t.screenH.toNat := by
    rw [UInt32.toNat_sub_of_le _ _ (UInt32.le_iff_toNat_le.mpr (by rw [UInt32.toNat_min]; omega)), UInt32.toNat_min]
  -- the clamped rectangle has the pixels of the rectangle that are on the screen
  generalize hclamp : (⟨min rect.x t.screenW, min rect.y t.screenH,
    min rect.w (t.screenW - min rect.x t.screenW), min rect.h (t.screenH - min rect.y t.screenH)⟩ : Rect) = m
  have hm : m.OnScreen t.screenW t.screenH := by
    subst hclamp
    constructor
    · simp only [UInt32.toNat_min, hx]
      omega
    · simp only [UInt32.toNat_min, hy]
      omega
  have hhas : ∀ p : Nat × Nat, rect.Has p → p.1 < t.screenW.toNat → p.2 < t.screenH.toNat → m.Has p := by
    subst hclamp
    intro p hp hpx hpy
    unfold Rect.Has at hp ⊢
    simp only [UInt32.toNat_min, hx, hy]
    omega
  unfold DamageTracker.addDamage
  simp only [hclamp]
  split
  · -- no pixel of the rectangle is on the screen
    rename_i hzero
    refine ⟨rfl, rfl, hfew, ht, fun p hp hpx hpy => hc p (hp.resolve_right fun hr => ?_) hpx hpy⟩
    have hin := hhas p hr hpx hpy
    subst hclamp
    unfold Rect.Has at hin
    rcases hzero with hzero | hzero
    · rw [hzero] at hin
      exact absurd hin.1.2 (by simpa using hin.1.1)
    · rw [hzero] at hin
      exact absurd hin.2.2 (by simpa using hin.2.1)
  · obtain ⟨htracks, hcoarser⟩ := absorb_spec t.regions 0 m ht hm (by simp)
    have hcover : ∀ p, due p ∨ rect.Has p → p.1 < t.screenW.toNat → p.2 < t.screenH.toNat →
        ∃ r ∈ (absorb t.regions 0 m).1 ++ [(absorb t.regions 0 m).2], r.Has p := by
      intro p hp hpx hpy
      refine (hcoarser ?_).2 p ?_
      · intro r hr
        rcases mem_cons.mp hr with rfl | hr
        · exact hm
        · exact ht.good r hr
      · rcases hp with hp | hp
        · obtain ⟨r, hr, hrp⟩ := hc p hp hpx hpy
          exact ⟨r, mem_cons_of_mem _ hr, hrp⟩
        · exact ⟨m, mem_cons_self, hhas p hp hpx hpy⟩
    split
    · exact Inv.collapse rfl rfl (by simp) htracks hcover
    · rename_i hle
      exact ⟨rfl, rfl, Nat.le_of_not_lt hle, htracks, hcover⟩

/-- The step lemma for the whole screen. -/
theorem Inv.damageFull (hi : Inv w h t due) :
    Inv w h t.damageFull fun p => due p ∨ p.1 < w.toNat ∧ p.2 < h.toNat := by
  obtain ⟨rfl, rfl, -, -, -⟩ := hi
  refine ⟨rfl, rfl, show 1 ≤ 10 by decide, ⟨fun r hr => ?_, pairwise_singleton _ _⟩, fun p _ hx hy => ?_⟩
  · rw [mem_singleton.mp hr]
    exact ⟨Nat.le_of_eq (Nat.zero_add _), Nat.le_of_eq (Nat.zero_add _)⟩
  · exact ⟨_, mem_singleton_self _, ⟨Nat.zero_le _, by simpa using hx⟩, Nat.zero_le _, by simpa using hy⟩

/-- The run lemma. -/
theorem Inv.run (hi : Inv w h t due) (calls : List Call) :
    Inv w h (calls.foldl Call.run t) fun p => due p ∨ ∃ c ∈ calls, c.Has w h p := by
  induction calls generalizing t due with
  | nil => simpa using hi
  | cons c calls ih =>
    have hstep : Inv w h (c.run t) fun p => due p ∨ c.Has w h p := by
      cases c with
      | addDamage rect => exact hi.addDamage rect
      | damageFull => exact hi.damageFull
    simpa [or_assoc] using ih hstep

end

/-- DAMAGE TRACKING: after any calls since a clear there are at most ten regions, apart from each other and on the
    screen, and they cover every pixel on the screen of every rectangle that was added. -/
theorem damage_covers_disjoint (t : DamageTracker) (calls : List Call) :
    let regions := (calls.foldl Call.run t.clear).regions
    regions.length ≤ 10 ∧ regions.Pairwise Apart ∧ (∀ r ∈ regions, r.OnScreen t.screenW t.screenH) ∧
      ∀ c ∈ calls, ∀ p : Nat × Nat, c.Has t.screenW t.screenH p → p.1 < t.screenW.toNat → p.2 < t.screenH.toNat →
        ∃ r ∈ regions, r.Has p := by
  have hclear : Inv t.screenW t.screenH t.clear fun _ => False :=
    ⟨rfl, rfl, Nat.zero_le _, ⟨fun r hr => absurd hr (by simp [DamageTracker.clear]), .nil⟩, fun _ h => h.elim⟩
  have hinv := hclear.run calls
  exact ⟨hinv.few, hinv.tracks.apart, hinv.tracks.good, fun c hc p hp => hinv.covers p (.inr ⟨c, hc, hp⟩)⟩

end Folkering.Damage
