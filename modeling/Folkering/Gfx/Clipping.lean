/-
  CLIPS AND DAMAGE — where the dispatcher paints.

  `active` are the clips pushed and not yet popped, innermost first; the dispatcher's stack is determined
  by them (`stackOf`).  The per-command facts (`execute_confined`, `execute_damage`, `execute_screen`) are
  carried along the loop by induction on its fuel; the damage that a call reports is at least as large as
  what any of its commands added.
-/
import Folkering.Gfx.Dispatch

namespace Folkering.Gfx

open List

/-! ## Fills -/

section

variable {scr : Screen} {x y w h r : Nat} {color : UInt32} {p : Write}

theorem mem_fillRect : p ∈ fillRect scr x y w h color ↔
    (x ≤ p.x ∧ p.x < x + w ∧ p.x < scr.width) ∧ (y ≤ p.y ∧ p.y < y + h ∧ p.y < scr.height) ∧ p.color = color := by
  simp only [fillRect, mem_flatMap, mem_map, mem_range]
  constructor
  · rintro ⟨row, hrow, i, hi, rfl⟩
    exact ⟨by simp only; omega, by simp only; omega, rfl⟩
  · rintro ⟨hx, hy, rfl⟩
    refine ⟨p.y - min y scr.height, by omega, p.x - min x scr.width, by omega, ?_⟩
    rw [show min x scr.width + (p.x - min x scr.width) = p.x by omega,
      show min y scr.height + (p.y - min y scr.height) = p.y by omega]

theorem insetFrom_le (r dx2 left : Nat) : insetFrom r dx2 left ≤ r := by
  induction left with
  | zero => exact Nat.le_refl r
  | succ left ih =>
    rw [insetFrom]
    split <;> omega

/-- Above the lowest row of the arc some columns are filled. -/
theorem insetFrom_lt {dx2 left : Nat} (hd : 1 ≤ dx2) (hl : 1 ≤ left) (hr : left ≤ r) : insetFrom r dx2 left < r := by
  induction left with
  | zero => omega
  | succ left ih =>
    rw [insetFrom]
    split
    · rename_i hlt
      cases left with
      | zero => omega
      | succ left => exact ih (by omega) (by omega)
    · exact Nat.sub_lt (Nat.lt_of_lt_of_le (Nat.succ_pos left) hr) (Nat.succ_pos left)

theorem mem_arcRow {dy : Nat} (h : p ∈ arcRow scr x y w r dy color) :
    (x ≤ p.x ∧ p.x < x + w ∧ p.x < scr.width) ∧ p.y = y ∧ p.y < scr.height := by
  unfold arcRow at h
  simp only at h
  split at h
  · rw [mem_fillRect] at h
    omega
  · cases h

/-- A rounded rectangle is painted within the rectangle and on the screen. -/
theorem mem_fillRectRounded {radius : Nat} (hp : p ∈ fillRectRounded scr x y w h color radius) :
    (x ≤ p.x ∧ p.x < x + w ∧ p.x < scr.width) ∧ (y ≤ p.y ∧ p.y < y + h ∧ p.y < scr.height) := by
  unfold fillRectRounded at hp
  simp only at hp
  generalize hr : min (min radius (w / 2)) (h / 2) = r at hp
  split at hp
  · have := mem_fillRect.mp hp
    exact ⟨this.1, this.2.1⟩
  rcases mem_append.mp hp with hp | hp
  · rcases mem_append.mp hp with hp | hp
    · obtain ⟨row, hrow, hp⟩ := mem_flatMap.mp hp
      have := mem_arcRow hp
      have := mem_range.mp hrow
      omega
    · split at hp
      · have := mem_fillRect.mp hp
        omega
      · cases hp
  · obtain ⟨row, hrow, hp⟩ := mem_flatMap.mp hp
    have := mem_arcRow hp
    have := mem_range.mp hrow
    omega

theorem fillRect_ne_nil (hw : 0 < w) (hh : 0 < h) (hx : x + w ≤ scr.width) (hy : y + h ≤ scr.height) :
    fillRect scr x y w h color ≠ [] := by
  have : (⟨x, y, color⟩ : Write) ∈ fillRect scr x y w h color := by
    rw [mem_fillRect]
    exact ⟨by simp only; omega, by simp only; omega, rfl⟩
  exact ne_nil_of_mem this

/-- Rounding leaves nothing of a square of two by two, and something of every other rectangle. -/
theorem fillRectRounded_eq_nil_iff {radius : Nat} (hw : 0 < w) (hh : 0 < h)
    (hx : x + w ≤ scr.width) (hy : y + h ≤ scr.height) :
    fillRectRounded scr x y w h color radius = [] ↔ 0 < radius ∧ w = 2 ∧ h = 2 := by
  unfold fillRectRounded
  simp only
  generalize hr : min (min radius (w / 2)) (h / 2) = r
  by_cases h0 : r = 0
  · rw [if_pos h0]
    constructor
    · intro hnil
      exact absurd hnil (fillRect_ne_nil hw hh hx hy)
    · omega
  rw [if_neg h0, append_eq_nil_iff, append_eq_nil_iff]
  constructor
  · rintro ⟨⟨htop, hmid⟩, _⟩
    have hmid0 : h - 2 * r = 0 := by
      by_contra hpos
      rw [if_pos (by omega)] at hmid
      exact absurd hmid (fillRect_ne_nil hw (by omega) hx (by omega))
    -- the last row of the upper band has its columns unless the radius is one
    have hrow := flatMap_eq_nil_iff.mp htop (r - 1) (mem_range.mpr (by omega))
    have hfirst := flatMap_eq_nil_iff.mp htop 0 (mem_range.mpr (by omega))
    have hnone : ∀ {row dy : Nat}, row < r → arcRow scr x (y + row) w r dy color = [] →
        w ≤ 2 * insetFrom r (r * r - dy * dy) r := by
      intro row dy hrow hnil
      by_contra hlt
      have hle := insetFrom_le r (r * r - dy * dy) r
      unfold arcRow at hnil
      simp only at hnil
      rw [if_pos (by omega)] at hnil
      exact absurd hnil (fillRect_ne_nil (by omega) (by omega) (by omega) (by omega))
    have hw1 := hnone (by omega) hrow
    have hle := insetFrom_le r (r * r - (r - (r - 1)) * (r - (r - 1))) r
    have hone : r = 1 := by
      by_contra hne
      have hsq : 1 ≤ r * r - (r - (r - 1)) * (r - (r - 1)) := by
        rw [show r - (r - 1) = 1 by omega]
        have : 2 * 2 ≤ r * r := Nat.mul_le_mul (by omega) (by omega)
        omega
      have := @insetFrom_lt r _ r hsq (by omega) (Nat.le_refl r)
      omega
    omega
  · rintro ⟨hpos, rfl, rfl⟩
    obtain rfl : r = 1 := by omega
    exact ⟨⟨rfl, rfl⟩, rfl⟩

theorem mem_drawCharAlpha {font : Font} {ch : Char} {fg : UInt32} : p ∈ drawCharAlpha scr font x y ch fg ↔
      ∃ row < 16, ∃ col < 8, font ch row col = true ∧ x + col < scr.width ∧ y + row < scr.height ∧
        p = ⟨x + col, y + row, fg⟩ := by
  simp only [drawCharAlpha, mem_flatMap, mem_range]
  constructor
  · rintro ⟨row, hrow, col, hcol, h⟩
    split at h
    · rename_i hlit
      exact ⟨row, hrow, col, hcol, hlit.1, hlit.2.1, hlit.2.2, mem_singleton.mp h⟩
    · cases h
  · rintro ⟨row, hrow, col, hcol, hlit, hx, hy, rfl⟩
    exact ⟨row, hrow, col, hcol, by rw [if_pos ⟨hlit, hx, hy⟩]; exact mem_singleton.mpr rfl⟩

end

/-! ## The visible part of a rectangle -/

/-- The area as a rectangle. -/
def Area.toRect (a : Area) : Rect := ⟨.ofInt a.x, .ofInt a.y, a.w, a.h⟩

variable {a : Area}

/-- The edges of the part of a rectangle that is on the screen. -/
theorem drawArea_edges {scr : Screen} {clipped : Rect} (h : drawArea scr clipped = some a) :
    (a.x : Int) = max clipped.x.toInt 0 ∧ (a.y : Int) = max clipped.y.toInt 0 ∧
    (a.x : Int) + a.w.toNat = min clipped.right scr.width ∧
    (a.y : Int) + a.h.toNat = min clipped.bottom scr.height ∧ 0 < a.w.toNat ∧ 0 < a.h.toNat := by
  simp only [drawArea] at h
  split at h
  · cases h
  rename_i hne
  cases h
  have hr := clipped.right_lt
  have hb := clipped.bottom_lt
  have hw := scr.width_lt
  have hh := scr.height_lt
  have hw' := @toNat_asU32 (min clipped.right scr.width - max clipped.x.toInt 0) (by omega) (by omega)
  have hh' := @toNat_asU32 (min clipped.bottom scr.height - max clipped.y.toInt 0) (by omega) (by omega)
  simp only
  omega

/-- The damage of an area is the area. -/
theorem Area.toRect_edges {scr : Screen} {clipped : Rect} (h : drawArea scr clipped = some a) :
    a.toRect.x.toInt = a.x ∧ a.toRect.y.toInt = a.y ∧ a.toRect.right = a.x + a.w.toNat ∧
    a.toRect.bottom = a.y + a.h.toNat := by
  obtain ⟨hx, hy, _⟩ := drawArea_edges h
  have hxlt := clipped.x.toInt_lt
  have hylt := clipped.y.toInt_lt
  have hx' : (Int32.ofInt a.x).toInt = a.x := Int32.toInt_ofInt_of_le (by omega) (by omega)
  have hy' : (Int32.ofInt a.y).toInt = a.y := Int32.toInt_ofInt_of_le (by omega) (by omega)
  refine ⟨hx', hy', ?_, ?_⟩
  · rw [Rect.right]
    simp only [Area.toRect, hx']
  · rw [Rect.bottom]
    simp only [Area.toRect, hy']

/-! ## The stack of clips -/

/-- The clips pushed and not popped, innermost first. -/
def activeStep (active : List Rect) : Command → List Rect
  | .setClipRect c =>
    if c.width = 0 ∧ c.height = 0 then active.tail else ⟨c.x, c.y, c.width, c.height⟩ :: active
  | _ => active

/-- What the dispatcher keeps of them: a clip that does not meet the ones below is dropped. -/
def keptClip : List Rect → Option Rect
  | [] => none
  | c :: cs =>
    match keptClip cs with
    | none => some c
    | some kept => some ((kept.intersection c).getD kept)

/-- The dispatcher's stack. -/
def stackOf : List Rect → List Rect
  | [] => []
  | c :: cs => (keptClip (c :: cs)).getD c :: stackOf cs

/-- The clips have a pixel in common. -/
def Meet (active : List Rect) : Prop := ∃ p, ∀ c ∈ active, c.Has p

section

variable {active : List Rect}

theorem keptClip_cons (c : Rect) (cs : List Rect) : ∃ k, keptClip (c :: cs) = some k := by
  rw [keptClip]
  split <;> exact ⟨_, rfl⟩

theorem stackOf_cons (c : Rect) (cs : List Rect) {k : Rect} (h : keptClip (c :: cs) = some k) :
    stackOf (c :: cs) = k :: stackOf cs := by
  rw [stackOf, h, Option.getD_some]

theorem setClip_stackOf (active : List Rect) (c : SetClipRectCmd) :
    setClip (stackOf active) c = stackOf (activeStep active (.setClipRect c)) := by
  by_cases hpop : c.width = 0 ∧ c.height = 0
  · rw [setClip, if_pos hpop, activeStep, if_pos hpop]
    cases active <;> rfl
  · rw [setClip, if_neg hpop, activeStep, if_neg hpop]
    cases active with
    | nil => rfl
    | cons d ds =>
      obtain ⟨k, hk⟩ := keptClip_cons d ds
      have hk' : keptClip (⟨c.x, c.y, c.width, c.height⟩ :: d :: ds) =
          some ((k.intersection ⟨c.x, c.y, c.width, c.height⟩).getD k) := by
        rw [keptClip, hk]
      rw [stackOf_cons _ _ hk', stackOf_cons _ _ hk]

/-- Clips with a pixel in common are kept exactly. -/
theorem keptClip_exact {k : Rect} (hmeet : Meet active) (hk : keptClip active = some k) (p : Int × Int) :
    k.Has p ↔ ∀ c ∈ active, c.Has p := by
  induction active generalizing k p with
  | nil => cases hk
  | cons c cs ih =>
    rw [forall_mem_cons]
    obtain ⟨common, hcommon⟩ := hmeet
    have hcommon' := forall_mem_cons.mp hcommon
    rw [keptClip] at hk
    split at hk
    · rename_i hnone
      cases hk
      cases cs with
      | nil => simp
      | cons d ds =>
        obtain ⟨k, hk⟩ := keptClip_cons d ds
        rw [hk] at hnone
        cases hnone
    · rename_i kept hkept
      cases hk
      have hiff := @ih kept ⟨common, hcommon'.2⟩ hkept
      cases hint : kept.intersection c with
      | none => exact absurd hcommon'.1 fun hc =>
          Rect.not_has_of_disjoint hint ((hiff common).mpr hcommon'.2) hc
      | some i =>
        rw [Option.getD_some, Rect.has_intersection hint, hiff, and_comm]

end

/-! ## What a command paints -/

/-- The part of a rectangle that is drawn under the active clips. -/
def visibleArea (scr : Screen) (active : List Rect) (r : DrawRectCmd) : Option Area :=
  (clipTarget ⟨r.x, r.y, r.width, r.height⟩ (stackOf active)).bind (drawArea scr)

/-- The rectangle paints something: a part of it is visible, other than a rounded square of two by two. -/
def PaintsRect (scr : Screen) (active : List Rect) (r : DrawRectCmd) : Prop :=
  ∃ a, visibleArea scr active r = some a ∧ ¬ (0 < r.cornerRadius.toNat ∧ a.w.toNat = 2 ∧ a.h.toNat = 2)

/-- A lit pixel of a glyph that is drawn: its box is on the screen and meets the clip that is kept. -/
def PaintsGlyphAt (scr : Screen) (font : Font) (active : List Rect) (x y : Int32) (text : List UInt8)
    (p : Int × Int) : Prop :=
  let x₀ := (max x.toInt 0).toNat
  let y₀ := (max y.toInt 0).toNat
  ∃ (chars : List Char) (k : Nat) (ch : Char) (row col : Nat), decodeUtf8 text = some chars ∧
    chars[k]? = some ch ∧ x₀ + 8 * k + 8 ≤ scr.width ∧ y₀ + 16 ≤ scr.height ∧
    skipsGlyph (stackOf active) (x₀ + 8 * k) y₀ = false ∧ row < 16 ∧ col < 8 ∧ font ch row col = true ∧
    p = (((x₀ + 8 * k + col : Nat) : Int), ((y₀ + row : Nat) : Int))

/-- The command paints a pixel under the clip on top. -/
def Paints (scr : Screen) (font : Font) (active : List Rect) : Command → Prop
  | .drawRect r => PaintsRect scr active r
  | .drawText x y _ _ text => ∃ p, PaintsGlyphAt scr font active x y text p
  | _ => False

/-- A rectangle that paints something is under clips that have a pixel in common, and no glyph that is
    drawn sticks out of a clip. -/
def Obeys (scr : Screen) (font : Font) (active : List Rect) : Command → Prop
  | .drawRect r => PaintsRect scr active r → Meet active
  | .drawText x y _ _ text => ∀ p, PaintsGlyphAt scr font active x y text p → ∀ c ∈ active, c.Has p
  | _ => True

section

variable {scr : Screen} {font : Font} {active : List Rect}

/-- The pixels of the visible part are in the rectangle, in the clip that is kept and on the screen. -/
theorem visibleArea_has {r : DrawRectCmd} (h : visibleArea scr active r = some a)
    {x y : Nat} (hx : a.x ≤ x ∧ x < a.x + a.w.toNat) (hy : a.y ≤ y ∧ y < a.y + a.h.toNat) :
    (∀ k, keptClip active = some k → k.Has (x, y)) ∧ x < scr.width ∧ y < scr.height := by
  obtain ⟨clipped, hclipped, harea⟩ := Option.bind_eq_some_iff.mp h
  obtain ⟨h1, h2, h3, h4, _⟩ := drawArea_edges harea
  have hhas : clipped.Has (x, y) := by
    unfold Rect.Has
    simp only
    omega
  refine ⟨?_, by omega, by omega⟩
  intro k hk
  cases active with
  | nil => cases hk
  | cons c cs =>
    rw [stackOf_cons c cs hk] at hclipped
    exact ((Rect.has_intersection hclipped).mp hhas).2

theorem mem_paintArea {color : UInt32} {radius : Nat} {p : Write} (h : p ∈ paintArea scr a color radius) :
    (a.x ≤ p.x ∧ p.x < a.x + a.w.toNat) ∧ (a.y ≤ p.y ∧ p.y < a.y + a.h.toNat) := by
  unfold paintArea at h
  split at h
  · have := mem_fillRect.mp h
    omega
  · have := mem_fillRectRounded h
    omega

theorem paintArea_eq_nil_iff {r : DrawRectCmd} (h : visibleArea scr active r = some a)
    {color : UInt32} {radius : Nat} :
    paintArea scr a color radius = [] ↔ 0 < radius ∧ a.w.toNat = 2 ∧ a.h.toNat = 2 := by
  obtain ⟨clipped, _, harea⟩ := Option.bind_eq_some_iff.mp h
  obtain ⟨_, _, h3, h4, hw, hh⟩ := drawArea_edges harea
  unfold paintArea
  split
  · rename_i h0
    constructor
    · intro hnil
      exact absurd hnil (fillRect_ne_nil hw hh (by omega) (by omega))
    · omega
  · exact fillRectRounded_eq_nil_iff hw hh (by omega) (by omega)

/-- Where the glyphs of a run are drawn, and where the cursor ends. -/
theorem mem_drawChars {clips : List Rect} {cursorY cursorX : Nat} {fg : UInt32} {chars : List Char} {p : Write} :
    p ∈ (drawChars scr font clips cursorY fg chars cursorX).2 ↔
      ∃ k ch, chars[k]? = some ch ∧ cursorX + 8 * k + 8 ≤ scr.width ∧ cursorY + 16 ≤ scr.height ∧
        skipsGlyph clips (cursorX + 8 * k) cursorY = false ∧
        p ∈ drawCharAlpha scr font (cursorX + 8 * k) cursorY ch fg := by
  induction chars generalizing cursorX with
  | nil => simp [drawChars]
  | cons ch chars ih =>
    have hshift : ∀ k, cursorX + 8 + 8 * k = cursorX + 8 * (k + 1) := fun k => by omega
    -- the glyphs behind the first
    have hrest : (∃ k c, chars[k]? = some c ∧ cursorX + 8 + 8 * k + 8 ≤ scr.width ∧
        cursorY + 16 ≤ scr.height ∧ skipsGlyph clips (cursorX + 8 + 8 * k) cursorY = false ∧
        p ∈ drawCharAlpha scr font (cursorX + 8 + 8 * k) cursorY c fg) ↔
        ∃ k c, (ch :: chars)[k + 1]? = some c ∧ cursorX + 8 * (k + 1) + 8 ≤ scr.width ∧
          cursorY + 16 ≤ scr.height ∧ skipsGlyph clips (cursorX + 8 * (k + 1)) cursorY = false ∧
          p ∈ drawCharAlpha scr font (cursorX + 8 * (k + 1)) cursorY c fg := by
      simp only [hshift, getElem?_cons_succ]
    rw [drawChars]
    split
    · rename_i hwide
      simp only [not_mem_nil, false_iff, not_exists, not_and]
      intro k c _ hin
      omega
    split
    · rename_i hskip
      rw [ih, hrest]
      constructor
      · rintro ⟨k, c, h⟩
        exact ⟨k + 1, c, h⟩
      · rintro ⟨k, c, h⟩
        cases k with
        | zero => simp [hskip] at h
        | succ k => exact ⟨k, c, h⟩
    split
    · rename_i hlow
      simp only [not_mem_nil, false_iff, not_exists, not_and]
      intro k c _ _ hin
      omega
    · rename_i hwide hskip hlow
      rw [mem_append, ih, hrest]
      constructor
      · rintro (h | ⟨k, c, h⟩)
        · exact ⟨0, ch, rfl, by omega, by omega, by simpa using hskip, h⟩
        · exact ⟨k + 1, c, h⟩
      · rintro ⟨k, c, h⟩
        cases k with
        | zero =>
          rw [getElem?_cons_zero, Option.some.injEq] at h
          obtain ⟨rfl, _, _, _, h⟩ := h
          exact .inl h
        | succ k => exact .inr ⟨k, c, h⟩

theorem le_drawChars {clips : List Rect} {cursorY cursorX : Nat} {fg : UInt32} {chars : List Char} :
    cursorX ≤ (drawChars scr font clips cursorY fg chars cursorX).1 ∧
    (cursorX < (drawChars scr font clips cursorY fg chars cursorX).1 →
      (drawChars scr font clips cursorY fg chars cursorX).1 ≤ scr.width) ∧
    ∀ p ∈ (drawChars scr font clips cursorY fg chars cursorX).2,
      cursorX ≤ p.x ∧ p.x < (drawChars scr font clips cursorY fg chars cursorX).1 := by
  induction chars generalizing cursorX with
  | nil => simp [drawChars]
  | cons ch chars ih =>
    obtain ⟨h1, h2, h3⟩ := @ih (cursorX + 8)
    rw [drawChars]
    split
    · simp
    rename_i hwide
    split
    · refine ⟨by omega, by omega, ?_⟩
      intro p hp
      have := h3 p hp
      omega
    split
    · simp
    · refine ⟨by simp only; omega, by simp only; omega, ?_⟩
      intro p hp
      simp only at hp ⊢
      rcases mem_append.mp hp with hp | hp
      · obtain ⟨row, _, col, _, _, _, _, rfl⟩ := mem_drawCharAlpha.mp hp
        simp only
        omega
      · have := h3 p hp
        omega

/-- The writes of a text command are the lit pixels of its glyphs. -/
theorem execute_text {s : DispatchState} (hs : s.clips = stackOf active) {x y : Int32} {color : UInt32}
    {size : UInt16} {text : List UInt8} {p : Int × Int} :
    (∃ w ∈ (execute scr font s (.drawText x y color size text)).1, w.pixel = p) ↔
      PaintsGlyphAt scr font active x y text p := by
  simp only [execute, PaintsGlyphAt, hs]
  cases htext : decodeUtf8 text with
  | none => simp
  | some chars =>
    simp only [mem_drawChars, mem_drawCharAlpha, Option.some.injEq]
    constructor
    · rintro ⟨w, ⟨k, ch, hch, hx, hy, hskip, row, hrow, col, hcol, hlit, _, _, rfl⟩, rfl⟩
      exact ⟨chars, k, ch, row, col, rfl, hch, hx, hy, hskip, hrow, hcol, hlit, rfl⟩
    · rintro ⟨_, k, ch, row, col, rfl, hch, hx, hy, hskip, hrow, hcol, hlit, rfl⟩
      exact ⟨_, ⟨k, ch, hch, hx, hy, hskip, row, hrow, col, hcol, hlit, by omega, by omega, rfl⟩, rfl⟩

/-- The writes of a rectangle command. -/
theorem execute_rect {s : DispatchState} (hs : s.clips = stackOf active) (r : DrawRectCmd) :
    (execute scr font s (.drawRect r)).1 = match visibleArea scr active r with
      | none => []
      | some a => paintArea scr a (rgbaToFb r.colorRgba) r.cornerRadius.toNat := by
  simp only [execute, hs, visibleArea]
  cases (clipTarget ⟨r.x, r.y, r.width, r.height⟩ (stackOf active)).bind (drawArea scr) <;> rfl

theorem paintsRect_iff (font : Font) {s : DispatchState} (hs : s.clips = stackOf active)
    (r : DrawRectCmd) : (execute scr font s (.drawRect r)).1 ≠ [] ↔ PaintsRect scr active r := by
  rw [execute_rect hs]
  cases harea : visibleArea scr active r with
  | none => simp [PaintsRect, harea]
  | some a => simp [PaintsRect, harea, paintArea_eq_nil_iff harea]

/-! ## One command -/

variable {s : DispatchState} (hs : s.clips = stackOf active)

include hs

theorem execute_clips (cmd : Command) : (execute scr font s cmd).2.clips = stackOf (activeStep active cmd) := by
  cases cmd with
  | setClipRect c => rw [← setClip_stackOf, ← hs]; rfl
  | drawRect r =>
    simp only [execute]
    split <;> exact hs
  | drawText x y color size text =>
    simp only [execute]
    split <;> exact hs
  | sync => exact hs
  | drawTexture t => exact hs
  | unknown op n => exact hs

theorem execute_paints (cmd : Command) : (execute scr font s cmd).1 ≠ [] ↔ Paints scr font active cmd := by
  cases cmd with
  | drawRect r => exact paintsRect_iff font hs r
  | drawText x y color size text =>
    constructor
    · intro h
      obtain ⟨w, hw⟩ := exists_mem_of_ne_nil _ h
      exact ⟨w.pixel, (execute_text hs).mp ⟨w, hw, rfl⟩⟩
    · rintro ⟨p, hp⟩
      obtain ⟨w, hw, _⟩ := (execute_text hs).mpr hp
      exact ne_nil_of_mem hw
  | sync => exact ⟨fun h => absurd rfl h, False.elim⟩
  | setClipRect c => exact ⟨fun h => absurd rfl h, False.elim⟩
  | drawTexture t => exact ⟨fun h => absurd rfl h, False.elim⟩
  | unknown op n => exact ⟨fun h => absurd rfl h, False.elim⟩

/-- A command paints within the active clips exactly when it obeys. -/
theorem execute_confined (cmd : Command) :
    (∀ w ∈ (execute scr font s cmd).1, ∀ c ∈ active, c.Has w.pixel) ↔ Obeys scr font active cmd := by
  cases cmd with
  | drawRect r =>
    constructor
    · intro h hpaints
      obtain ⟨w, hw⟩ := exists_mem_of_ne_nil _ ((paintsRect_iff font hs r).mpr hpaints)
      exact ⟨w.pixel, h w hw⟩
    · intro h w hw
      have hmeet := h ((paintsRect_iff font hs r).mp (ne_nil_of_mem hw))
      rw [execute_rect hs] at hw
      cases harea : visibleArea scr active r with
      | none => simp [harea] at hw
      | some a =>
        simp only [harea] at hw
        obtain ⟨hx, hy⟩ := mem_paintArea hw
        have hkept := (visibleArea_has harea hx hy).1
        cases hactive : active with
        | nil => simp
        | cons d ds =>
          obtain ⟨k, hk⟩ := keptClip_cons d ds
          rw [hactive] at hkept hmeet
          exact (keptClip_exact hmeet hk _).mp (hkept k hk)
  | drawText x y color size text =>
    constructor
    · intro h p hp
      obtain ⟨w, hw, rfl⟩ := (execute_text hs).mpr hp
      exact h w hw
    · intro h w hw
      exact h w.pixel ((execute_text hs).mp ⟨w, hw, rfl⟩)
  | sync => exact ⟨fun _ => trivial, fun _ w hw => absurd hw not_mem_nil⟩
  | setClipRect c => exact ⟨fun _ => trivial, fun _ w hw => absurd hw not_mem_nil⟩
  | drawTexture t => exact ⟨fun _ => trivial, fun _ w hw => absurd hw not_mem_nil⟩
  | unknown op n => exact ⟨fun _ => trivial, fun _ w hw => absurd hw not_mem_nil⟩

theorem execute_screen (cmd : Command) : ∀ w ∈ (execute scr font s cmd).1, w.x < scr.width ∧ w.y < scr.height := by
  intro w hw
  cases cmd with
  | drawRect r =>
    rw [execute_rect hs] at hw
    cases harea : visibleArea scr active r with
    | none => simp [harea] at hw
    | some a =>
      simp only [harea] at hw
      obtain ⟨hx, hy⟩ := mem_paintArea hw
      exact (visibleArea_has harea hx hy).2
  | drawText x y color size text =>
    obtain ⟨_, k, ch, row, col, _, _, hx, hy, _, hrow, hcol, _, heq⟩ := (execute_text hs).mp ⟨w, hw, rfl⟩
    simp only [Write.pixel, Prod.mk.injEq, Nat.cast_inj] at heq
    omega
  | sync => cases hw
  | setClipRect c => cases hw
  | drawTexture t => cases hw
  | unknown op n => cases hw

end

/-! ## Damage -/

/-- The pixel is in the damage. -/
def Covers (damage : Option Rect) (p : Int × Int) : Prop := ∃ r, damage = some r ∧ r.Has p

/-- A rectangle at non-negative coordinates below 2^32: unions of such rectangles do not overflow. -/
structure Modest (r : Rect) : Prop where
  x : 0 ≤ r.x.toInt
  y : 0 ≤ r.y.toInt
  right : r.right < 2 ^ 32
  bottom : r.bottom < 2 ^ 32

/-- The damage so far is a modest rectangle. -/
def ModestDamage (damage : Option Rect) : Prop := ∀ r, damage = some r → Modest r

theorem modest_union {a b : Rect} (ha : Modest a) (hb : Modest b) : Modest (a.union b) := by
  obtain ⟨hx, hr, hy, hbot⟩ := @Rect.union_edges a b
    (by have := ha.x; have := hb.x; have := ha.right; have := hb.right; omega)
    (by have := ha.y; have := hb.y; have := ha.bottom; have := hb.bottom; omega)
  obtain ⟨_, _, _, _⟩ := ha
  obtain ⟨_, _, _, _⟩ := hb
  constructor <;> omega

/-- Extending the damage keeps what it has and adds the rectangle. -/
theorem extendDamage_spec {damage : Option Rect} {r : Rect} (hd : ModestDamage damage) (hr : Modest r) :
    ModestDamage (extendDamage damage r) ∧ ∀ p, Covers damage p ∨ r.Has p → Covers (extendDamage damage r) p := by
  cases damage with
  | none =>
    constructor
    · intro r' h
      cases h
      exact hr
    · rintro p (⟨r', h, _⟩ | h)
      · cases h
      · exact ⟨r, rfl, h⟩
  | some prev =>
    have hprev := hd prev rfl
    constructor
    · intro r' h
      cases h
      exact modest_union hprev hr
    · intro p h
      refine ⟨_, rfl, Rect.has_union ?_ ?_ ?_⟩
      · have := hprev.x; have := hr.x; have := hprev.right; have := hr.right
        omega
      · have := hprev.y; have := hr.y; have := hprev.bottom; have := hr.bottom
        omega
      · rcases h with ⟨r', h, hp⟩ | h
        · cases h
          exact .inl hp
        · exact .inr h

section

variable {scr : Screen} {font : Font} {active : List Rect}

/-- The damage of a run of text. -/
def textRect (x y cursorX : Nat) : Rect := ⟨.ofInt x, .ofInt y, asU32 (cursorX - x), 16⟩

theorem textRect_edges {x y cursorX : Nat} (hx : x < 2 ^ 31) (hy : y < 2 ^ 31) (hle : x ≤ cursorX)
    (hc : cursorX < 2 ^ 32) : (textRect x y cursorX).x.toInt = x ∧ (textRect x y cursorX).y.toInt = y ∧
    (textRect x y cursorX).right = cursorX ∧ (textRect x y cursorX).bottom = y + 16 := by
  have hx' : (Int32.ofInt x).toInt = x := Int32.toInt_ofInt_of_le (by omega) (by omega)
  have hy' : (Int32.ofInt y).toInt = y := Int32.toInt_ofInt_of_le (by omega) (by omega)
  have hw' := @toNat_asU32 ((cursorX : Int) - x) (by omega) (by omega)
  refine ⟨hx', hy', ?_, ?_⟩
  · rw [Rect.right]
    simp only [textRect, hx', hw']
    omega
  · rw [Rect.bottom]
    simp only [textRect, hy']
    rfl

/-- The damage after a command: modest, with all that it had and what the command wrote. -/
structure DamageGrows (s s' : DispatchState) (writes : List Write) : Prop where
  modest : ModestDamage s'.stats.damage
  keeps : ∀ p, Covers s.stats.damage p → Covers s'.stats.damage p
  adds : ∀ w ∈ writes, Covers s'.stats.damage w.pixel

theorem DamageGrows.same {s s' : DispatchState} (hd : ModestDamage s.stats.damage)
    (h : s'.stats.damage = s.stats.damage) : DamageGrows s s' [] :=
  ⟨h ▸ hd, fun _ hp => h ▸ hp, fun _ hw => absurd hw not_mem_nil⟩

theorem execute_damage {s : DispatchState} (hs : s.clips = stackOf active)
    (hd : ModestDamage s.stats.damage) (cmd : Command) :
    DamageGrows s (execute scr font s cmd).2 (execute scr font s cmd).1 := by
  cases cmd with
  | sync => exact .same hd rfl
  | setClipRect c => exact .same hd rfl
  | drawTexture t => exact .same hd rfl
  | unknown op n => exact .same hd rfl
  | drawRect r =>
    simp only [execute]
    rw [hs]
    cases harea : (clipTarget ⟨r.x, r.y, r.width, r.height⟩ (stackOf active)).bind (drawArea scr) with
    | none => exact .same hd rfl
    | some a =>
      obtain ⟨clipped, _, hedges⟩ := Option.bind_eq_some_iff.mp harea
      obtain ⟨hx, hy, hr, hb⟩ := Area.toRect_edges hedges
      obtain ⟨_, _, h3, h4, _⟩ := drawArea_edges hedges
      have hw := scr.width_lt
      have hh := scr.height_lt
      have hmodest : Modest a.toRect := by constructor <;> omega
      obtain ⟨hgood, hcovers⟩ := extendDamage_spec hd hmodest
      refine ⟨hgood, fun p hp => hcovers p (.inl hp), ?_⟩
      intro w hw
      obtain ⟨hwx, hwy⟩ := mem_paintArea hw
      refine hcovers _ (.inr ?_)
      unfold Rect.Has
      simp only [Write.pixel]
      omega
  | drawText x y color size text =>
    simp only [execute]
    cases htext : decodeUtf8 text with
    | none => exact .same hd rfl
    | some chars =>
      simp only
      obtain ⟨hle, hwide, hin⟩ := @le_drawChars scr font s.clips (max y.toInt 0).toNat
        (max x.toInt 0).toNat (rgbaToFb color) chars
      have hylt := y.toInt_lt
      have hxlt := x.toInt_lt
      have hsw := scr.width_lt
      have hrows : ∀ w ∈ (drawChars scr font s.clips (max y.toInt 0).toNat (rgbaToFb color) chars
          (max x.toInt 0).toNat).2, (max y.toInt 0).toNat ≤ w.y ∧ w.y < (max y.toInt 0).toNat + 16 := by
        intro w hw
        obtain ⟨k, ch, _, _, _, _, hw⟩ := mem_drawChars.mp hw
        obtain ⟨row, hrow, col, _, _, _, _, rfl⟩ := mem_drawCharAlpha.mp hw
        simp only
        omega
      generalize drawChars scr font s.clips (max y.toInt 0).toNat (rgbaToFb color) chars
        (max x.toInt 0).toNat = run at hle hwide hin hrows ⊢
      obtain ⟨cursorX, writes⟩ := run
      simp only at hle hwide hin hrows ⊢
      by_cases hmoved : (max x.toInt 0).toNat < cursorX
      · simp only [if_pos hmoved]
        obtain ⟨h1, h2, hr, hb⟩ := @textRect_edges (max x.toInt 0).toNat (max y.toInt 0).toNat cursorX
          (by omega) (by omega) (Nat.le_of_lt hmoved) (by omega)
        have hmodest : Modest (textRect (max x.toInt 0).toNat (max y.toInt 0).toNat cursorX) := by
          constructor <;> omega
        obtain ⟨hgood, hcovers⟩ := extendDamage_spec hd hmodest
        refine ⟨hgood, fun p hp => hcovers p (.inl hp), ?_⟩
        intro w hw
        have := hin w hw
        have := hrows w hw
        refine hcovers _ (.inr ?_)
        unfold Rect.Has
        simp only [Write.pixel]
        omega
      · simp only [if_neg hmoved]
        -- a cursor that has not moved has drawn nothing
        obtain rfl : writes = [] := by
          apply eq_nil_iff_forall_not_mem.mpr
          intro w hw
          have := hin w hw
          omega
        exact .same hd rfl

end

/-! ## The whole list -/

/-- Each command writes within the clips that are active at it. -/
def Confined : List Rect → List (Command × List Write) → Prop
  | _, [] => True
  | active, (cmd, writes) :: trace =>
    (∀ w ∈ writes, ∀ c ∈ active, c.Has w.pixel) ∧ Confined (activeStep active cmd) trace

instance decidableConfined : ∀ active trace, Decidable (Confined active trace)
  | _, [] => isTrue trivial
  | active, (cmd, writes) :: trace =>
    have := decidableConfined (activeStep active cmd) trace
    inferInstanceAs (Decidable ((∀ w ∈ writes, ∀ c ∈ active, c.Has w.pixel) ∧ _))

/-- Every command of the list obeys, with the clips that are active at it. -/
def AllObey (scr : Screen) (font : Font) : List Rect → List Command → Prop
  | _, [] => True
  | active, cmd :: cmds => Obeys scr font active cmd ∧ AllObey scr font (activeStep active cmd) cmds

/-- Some command of the list paints, each under the clips of its turn. -/
def SomePaints (scr : Screen) (font : Font) : List Rect → List Command → Prop
  | _, [] => False
  | active, cmd :: cmds => Paints scr font active cmd ∨ SomePaints scr font (activeStep active cmd) cmds

/-- Everything that the call writes is within the clips, on the screen and in the damage it reports. -/
structure Bounded (scr : Screen) (o : Outcome) : Prop where
  clips : Confined [] o.trace
  screen : ∀ entry ∈ o.trace, ∀ w ∈ entry.2, w.x < scr.width ∧ w.y < scr.height
  damage : ∀ entry ∈ o.trace, ∀ w ∈ entry.2, Covers o.damage w.pixel

section

variable {scr : Screen} {font : Font} {bytes : List UInt8} {active : List Rect}

variable {fuel pos : Nat}

theorem dispatchLoop_confined {s : DispatchState} (hs : s.clips = stackOf active) :
    Confined active (dispatchLoop scr font bytes fuel pos s).trace ↔
      AllObey scr font active (commandsFrom bytes fuel pos).1 := by
  induction fuel generalizing pos s active with
  | zero => exact Iff.rfl
  | succ fuel ih =>
    rcases @dispatchLoop_cases scr font bytes fuel pos s with
      ⟨e, hc, hd⟩ | ⟨at', hc, hd⟩ | ⟨next, hc, hd⟩ | ⟨cmd, next, hc, hd⟩
    · rw [hc, hd]; exact Iff.rfl
    · rw [hc, hd]; exact Iff.rfl
    · rw [hc, hd]
      simp [Confined, AllObey, Obeys]
    · rw [hc, hd]
      exact and_congr (execute_confined hs cmd) (ih (execute_clips hs cmd))

theorem dispatchLoop_screen {s : DispatchState} (hs : s.clips = stackOf active) :
    ∀ entry ∈ (dispatchLoop scr font bytes fuel pos s).trace, ∀ w ∈ entry.2, w.x < scr.width ∧ w.y < scr.height := by
  induction fuel generalizing pos s active with
  | zero => intro entry h; cases h
  | succ fuel ih =>
    intro entry h w hw
    rcases @dispatchLoop_cases scr font bytes fuel pos s with
      ⟨e, _, hd⟩ | ⟨at', _, hd⟩ | ⟨next, _, hd⟩ | ⟨cmd, next, _, hd⟩
    · rw [hd] at h; cases h
    · rw [hd] at h; cases h
    · rw [hd] at h
      obtain rfl := mem_singleton.mp h
      cases hw
    · rw [hd] at h
      rcases mem_cons.mp h with rfl | h
      · exact execute_screen hs cmd w hw
      · exact ih (execute_clips hs cmd) entry h w hw

theorem dispatchLoop_paints {s : DispatchState} (hs : s.clips = stackOf active) :
    (∃ entry ∈ (dispatchLoop scr font bytes fuel pos s).trace, entry.2 ≠ []) ↔
      SomePaints scr font active (commandsFrom bytes fuel pos).1 := by
  induction fuel generalizing pos s active with
  | zero => simp [dispatchLoop, commandsFrom, SomePaints]
  | succ fuel ih =>
    rcases @dispatchLoop_cases scr font bytes fuel pos s with
      ⟨e, hc, hd⟩ | ⟨at', hc, hd⟩ | ⟨next, hc, hd⟩ | ⟨cmd, next, hc, hd⟩
    · rw [hc, hd]; simp [SomePaints]
    · rw [hc, hd]; simp [SomePaints]
    · rw [hc, hd]; simp [SomePaints, Paints]
    · rw [hc, hd]
      simp only [exists_mem_cons_iff, SomePaints]
      exact or_congr (execute_paints hs cmd) (ih (execute_clips hs cmd))

/-- Without a fault the damage that the loop ends with has all it started with and all that was written. -/
theorem dispatchLoop_damage {s : DispatchState} (hs : s.clips = stackOf active)
    (hd : ModestDamage s.stats.damage) (hok : (commandsFrom bytes fuel pos).2 = none) :
    (∀ p, Covers s.stats.damage p → Covers (dispatchLoop scr font bytes fuel pos s).damage p) ∧
    ∀ entry ∈ (dispatchLoop scr font bytes fuel pos s).trace, ∀ w ∈ entry.2,
      Covers (dispatchLoop scr font bytes fuel pos s).damage w.pixel := by
  induction fuel generalizing pos s active with
  | zero => exact ⟨fun p hp => hp, fun entry h => by cases h⟩
  | succ fuel ih =>
    rcases @dispatchLoop_cases scr font bytes fuel pos s with
      ⟨e, hc, hloop⟩ | ⟨at', hc, hloop⟩ | ⟨next, hc, hloop⟩ | ⟨cmd, next, hc, hloop⟩
    · rw [hc] at hok
      cases hok
    · rw [hloop]
      exact ⟨fun p hp => hp, fun entry h => by cases h⟩
    · rw [hloop]
      refine ⟨fun p hp => hp, fun entry h w hw => ?_⟩
      obtain rfl := mem_singleton.mp h
      cases hw
    · rw [hc] at hok
      obtain ⟨hmodest, hkeeps, hadds⟩ := @execute_damage scr font active s hs hd cmd
      obtain ⟨hrest, hwrites⟩ := ih (execute_clips hs cmd) hmodest hok
      rw [hloop]
      refine ⟨fun p hp => hrest p (hkeeps p hp), ?_⟩
      intro entry h w hw
      rcases mem_cons.mp h with rfl | h
      · exact hrest _ (hadds w hw)
      · exact hwrites entry h w hw

/-- A fault leaves no damage to report. -/
theorem dispatchLoop_fault {s : DispatchState} {e : ParseError} (h : (commandsFrom bytes fuel pos).2 = some e) :
    (dispatchLoop scr font bytes fuel pos s).damage = none := by
  induction fuel generalizing pos s with
  | zero => cases h
  | succ fuel ih =>
    rcases @dispatchLoop_cases scr font bytes fuel pos s with
      ⟨e, hc, hd⟩ | ⟨at', hc, hd⟩ | ⟨next, hc, hd⟩ | ⟨cmd, next, hc, hd⟩
    · rw [hd]; rfl
    · rw [hc] at h; cases h
    · rw [hc] at h; cases h
    · rw [hc] at h
      rw [hd]
      exact ih h

end

/-- A call paints within the active clips, the screen and the damage it reports exactly when each of its
    commands obeys and, if the list is malformed, nothing is painted before the fault. -/
theorem drawing_bounded_iff (scr : Screen) (font : Font) (bytes : List UInt8) :
    Bounded scr (dispatchDisplayList scr font bytes) ↔ AllObey scr font [] (commands bytes).1 ∧
      ((commands bytes).2 ≠ none → ¬ SomePaints scr font [] (commands bytes).1) := by
  have hs : DispatchState.start.clips = stackOf [] := rfl
  have hmodest : ModestDamage DispatchState.start.stats.damage := fun r h => by cases h
  constructor
  · rintro ⟨hclips, _, hdamage⟩
    refine ⟨(dispatchLoop_confined hs).mp hclips, ?_⟩
    intro hfault hpaints
    obtain ⟨e, he⟩ := Option.ne_none_iff_exists'.mp hfault
    obtain ⟨entry, hentry, hne⟩ := (dispatchLoop_paints hs).mpr hpaints
    obtain ⟨w, hw⟩ := exists_mem_of_ne_nil _ hne
    obtain ⟨r, hr, _⟩ := hdamage entry hentry w hw
    rw [dispatchDisplayList, dispatchLoop_fault he] at hr
    cases hr
  · rintro ⟨hobey, hquiet⟩
    refine ⟨(dispatchLoop_confined hs).mpr hobey, dispatchLoop_screen hs, ?_⟩
    cases hfault : (commands bytes).2 with
    | none => exact (dispatchLoop_damage hs hmodest hfault).2
    | some e =>
      intro entry hentry w hw
      have hnone := hquiet (by rw [hfault]; exact Option.some_ne_none e)
      exact absurd ((dispatchLoop_paints hs).mp ⟨entry, hentry, ne_nil_of_mem hw⟩) hnone

/-- A 4 by 4 screen; a clip on its left half, one on its right edge, and a rectangle over all of it. -/
def smallScreen : Screen := ⟨4, 4, by decide, by decide⟩

/-- Two clips that do not meet, and a rectangle. -/
def disjointClips : List UInt8 :=
  [1, 16, 0, 0, 0, 0, 0, 0, 0, 0, 0, 2, 0, 0, 0, 4, 0, 0, 0,
   1, 16, 0, 3, 0, 0, 0, 0, 0, 0, 0, 1, 0, 0, 0, 4, 0, 0, 0,
   2, 22, 0, 0, 0, 0, 0, 0, 0, 0, 0, 4, 0, 0, 0, 4, 0, 0, 0, 255, 255, 255, 255, 0, 0,
   0, 0, 0]

/-- The second clip is dropped, and the rectangle is painted outside it. -/
theorem disjoint_clip_is_dropped :
    ¬ Bounded smallScreen (dispatchDisplayList smallScreen (fun _ _ _ => true) disjointClips) := by
  rintro ⟨hclips, _, _⟩
  exact absurd hclips (by decide +kernel)

end Folkering.Gfx
