/-
  DISPATCH — a display list becomes pixels.

  The dispatcher walks the commands of a list, keeps a stack of clips and paints rectangles and glyphs.
  What it paints is modelled as the writes of each command (`Outcome.trace`), the font as the table of lit
  pixels of a character.  The stack holds, for each clip, the intersection with the clips below, but where
  there is none it keeps the clip below (`keptClip`).  Rectangles are cut to the top of the stack and glyphs
  are not cut at all, so that
    * every write is on the screen and in the damage that the call reports, when it reports one;
    * a rectangle stays within all active clips exactly when they have a pixel in common;
    * text stays within them exactly when no glyph that the clip lets through sticks out of it.
-/
import Folkering.Gfx.DisplayList
import Folkering.Gfx.Rect

namespace Folkering.Gfx

/-! ## Painting -/

/-- The size of the framebuffer. -/
structure Screen where
  width : Nat
  height : Nat
  width_lt : width < 2 ^ 32
  height_lt : height < 2 ^ 32

/-- One pixel written. -/
structure Write where
  x : Nat
  y : Nat
  color : UInt32
deriving Repr, DecidableEq

/-- The pixel of a write. -/
def Write.pixel (w : Write) : Int × Int := (w.x, w.y)

/-- The pixels of a character that are lit, by row and column. -/
abbrev Font := Char → Nat → Nat → Bool

/-- The colour in the byte order of the framebuffer. -/
def rgbaToFb (rgba : UInt32) : UInt32 :=
  let r := (rgba >>> 24) &&& 0xFF
  let g := (rgba >>> 16) &&& 0xFF
  let b := (rgba >>> 8) &&& 0xFF
  (r <<< 16) ||| (g <<< 8) ||| b

/-- Every pixel of the rectangle that is on the screen. -/
def fillRect (scr : Screen) (x y w h : Nat) (color : UInt32) : List Write :=
  let endX := min (x + w) scr.width
  let endY := min (y + h) scr.height
  let startX := min x scr.width
  let startY := min y scr.height
  (List.range (endY - startY)).flatMap fun row =>
    (List.range (endX - startX)).map fun i => ⟨startX + i, startY + row, color⟩

/-- The columns that the arc leaves free: the least `sx` with `(r - sx)² ≤ dx2`, `left` being `r - sx`. -/
def insetFrom (r dx2 : Nat) : (left : Nat) → Nat
  | 0 => r
  | left + 1 => if dx2 < (left + 1) * (left + 1) then insetFrom r dx2 left else r - (left + 1)

/-- One row of a corner band, `dy` rows from the centre of the corner. -/
def arcRow (scr : Screen) (x y w r dy : Nat) (color : UInt32) : List Write :=
  let inset := insetFrom r (r * r - dy * dy) r
  let rowW := w - 2 * inset
  if 0 < rowW then fillRect scr (x + inset) y rowW 1 color else []

/-- The same without the corners. -/
def fillRectRounded (scr : Screen) (x y w h : Nat) (color : UInt32) (radius : Nat) : List Write :=
  let r := min (min radius (w / 2)) (h / 2)
  if r = 0 then fillRect scr x y w h color
  else
    let top := (List.range r).flatMap fun row => arcRow scr x (y + row) w r (r - row) color
    let midH := h - 2 * r
    let middle := if 0 < midH then fillRect scr x (y + r) w midH color else []
    let bottom := (List.range r).flatMap fun row => arcRow scr x (y + (h - r + row)) w r (row + 1) color
    top ++ middle ++ bottom

/-- Only the lit pixels are written: the background has no weight. -/
def drawCharAlpha (scr : Screen) (font : Font) (x y : Nat) (ch : Char) (fg : UInt32) : List Write :=
  (List.range 16).flatMap fun row =>
    (List.range 8).flatMap fun col =>
      if font ch row col ∧ x + col < scr.width ∧ y + row < scr.height then [⟨x + col, y + row, fg⟩] else []

/-! ## The dispatcher -/

/-- What was drawn and what was skipped. -/
structure DispatchStats where
  drawRects : Nat
  drawTexts : Nat
  setClips : Nat
  drawTexturesSkipped : Nat
  unknownSkipped : Nat
  damage : Option Rect
deriving Repr, DecidableEq

/-- The counters, and the stack of clips with its top first. -/
structure DispatchState where
  stats : DispatchStats
  clips : List Rect
deriving Repr, DecidableEq

/-- Nothing drawn, no clip. -/
def DispatchState.start : DispatchState := ⟨⟨0, 0, 0, 0, 0, none⟩, []⟩

/-- The bounding box of all that was drawn. -/
def extendDamage (damage : Option Rect) (rect : Rect) : Option Rect :=
  match damage with
  | some prev => some (prev.union rect)
  | none => some rect

/-- The part of a rectangle that is drawn: within the top clip and on the screen. -/
structure Area where
  x : Nat
  y : Nat
  w : UInt32
  h : UInt32
deriving Repr, DecidableEq

/-- The target under the clip on top. -/
def clipTarget (target : Rect) : List Rect → Option Rect
  | top :: _ => target.intersection top
  | [] => some target

/-- The part of a rectangle on the screen. -/
def drawArea (scr : Screen) (clipped : Rect) : Option Area :=
  let fx := max clipped.x.toInt 0
  let fy := max clipped.y.toInt 0
  let fr := min clipped.right scr.width
  let fbottom := min clipped.bottom scr.height
  if fr ≤ fx ∨ fbottom ≤ fy then none
  else some { x := fx.toNat, y := fy.toNat, w := asU32 (fr - fx), h := asU32 (fbottom - fy) }

/-- Fill an area, with or without round corners. -/
def paintArea (scr : Screen) (a : Area) (color : UInt32) (radius : Nat) : List Write :=
  if radius = 0 then fillRect scr a.x a.y a.w.toNat a.h.toNat color
  else fillRectRounded scr a.x a.y a.w.toNat a.h.toNat color radius

/-- The cell of a character. -/
def glyphRect (cursorX cursorY : Nat) : Rect :=
  { x := .ofInt cursorX, y := .ofInt cursorY, w := 8, h := 16 }

/-- The glyph at the cursor is scissored out as a whole. -/
def skipsGlyph (clips : List Rect) (cursorX cursorY : Nat) : Bool :=
  match clips with
  | top :: _ => (top.intersection (glyphRect cursorX cursorY)).isNone
  | [] => false

/-- The glyphs of a run from the cursor on: the cursor after them, and what was written. -/
def drawChars (scr : Screen) (font : Font) (clips : List Rect) (cursorY : Nat) (fg : UInt32) :
    List Char → Nat → Nat × List Write
  | [], cursorX => (cursorX, [])
  | ch :: chars, cursorX =>
    if scr.width < cursorX + 8 then (cursorX, [])
    else if skipsGlyph clips cursorX cursorY then drawChars scr font clips cursorY fg chars (cursorX + 8)
    else if scr.height < cursorY + 16 then (cursorX, [])
    else
      let (after, writes) := drawChars scr font clips cursorY fg chars (cursorX + 8)
      (after, drawCharAlpha scr font cursorX cursorY ch fg ++ writes)

/-- `core::str::from_utf8` and the characters. -/
def decodeUtf8 (text : List UInt8) : Option (List Char) :=
  (String.fromUTF8? ⟨text.toArray⟩).map String.toList

/-- Push a clip; an empty one pops. -/
def setClip (clips : List Rect) (c : SetClipRectCmd) : List Rect :=
  if c.width = 0 ∧ c.height = 0 then clips.tail
  else
    let newClip : Rect := ⟨c.x, c.y, c.width, c.height⟩
    match clips with
    | top :: _ => (top.intersection newClip).getD top :: clips
    | [] => [newClip]

/-- One command: what it writes and the state after it. -/
def execute (scr : Screen) (font : Font) (s : DispatchState) : Command → List Write × DispatchState
  | .sync => ([], s)
  | .setClipRect c =>
    ([], { stats := { s.stats with setClips := s.stats.setClips + 1 }, clips := setClip s.clips c })
  | .drawRect r =>
    let stats := { s.stats with drawRects := s.stats.drawRects + 1 }
    match (clipTarget ⟨r.x, r.y, r.width, r.height⟩ s.clips).bind (drawArea scr) with
    | none => ([], { s with stats })
    | some a =>
      let damage := extendDamage s.stats.damage ⟨.ofInt a.x, .ofInt a.y, a.w, a.h⟩
      (paintArea scr a (rgbaToFb r.colorRgba) r.cornerRadius.toNat, { s with stats := { stats with damage } })
  | .drawText x y colorRgba _ text =>
    let stats := { s.stats with drawTexts := s.stats.drawTexts + 1 }
    let textXStart := (max x.toInt 0).toNat
    let cursorY := (max y.toInt 0).toNat
    match decodeUtf8 text with
    | none => ([], { s with stats })
    | some chars =>
      let (cursorX, writes) := drawChars scr font s.clips cursorY (rgbaToFb colorRgba) chars textXStart
      let damage := if textXStart < cursorX then
          extendDamage s.stats.damage
            ⟨.ofInt textXStart, .ofInt cursorY, asU32 (cursorX - textXStart), 16⟩
        else s.stats.damage
      (writes, { s with stats := { stats with damage } })
  | .drawTexture _ =>
    ([], { s with stats := { s.stats with drawTexturesSkipped := s.stats.drawTexturesSkipped + 1 } })
  | .unknown _ _ => ([], { s with stats := { s.stats with unknownSkipped := s.stats.unknownSkipped + 1 } })

/-- What a call returns, and the commands it has run with what each wrote. -/
structure Outcome where
  result : Except ParseError (Nat × DispatchStats)
  trace : List (Command × List Write)

/-- The loop over the commands; it leaves at a `Sync`. -/
def dispatchLoop (scr : Screen) (font : Font) (bytes : List UInt8) :
    (fuel pos : Nat) → DispatchState → Outcome
  | 0, pos, s => ⟨.ok (pos, s.stats), []⟩
  | fuel + 1, pos, s =>
    match nextCommand bytes pos with
    | .error e => ⟨.error e, []⟩
    | .ok none => ⟨.ok (pos, s.stats), []⟩
    | .ok (some (.sync, next)) => ⟨.ok (next, s.stats), [(.sync, [])]⟩
    | .ok (some (cmd, next)) =>
      let (writes, s) := execute scr font s cmd
      let rest := dispatchLoop scr font bytes fuel next s
      ⟨rest.result, (cmd, writes) :: rest.trace⟩

/-- Draw a display list from its first byte. -/
def dispatchDisplayList (scr : Screen) (font : Font) (bytes : List UInt8) : Outcome :=
  dispatchLoop scr font bytes bytes.length 0 .start

/-- The damage that the call reports. -/
def Outcome.damage (o : Outcome) : Option Rect :=
  match o.result with
  | .ok (_, stats) => stats.damage
  | .error _ => none

/-! ## The loop and the walker -/

section

variable {scr : Screen} {font : Font} {bytes : List UInt8}

/-- What the loop does with the next command. -/
theorem dispatchLoop_cases (fuel pos : Nat) (s : DispatchState) :
    (∃ e, commandsFrom bytes (fuel + 1) pos = ([], some e) ∧
      dispatchLoop scr font bytes (fuel + 1) pos s = ⟨.error e, []⟩) ∨
    (∃ at', commandsFrom bytes (fuel + 1) pos = ([], none) ∧
      dispatchLoop scr font bytes (fuel + 1) pos s = ⟨.ok (at', s.stats), []⟩) ∨
    (∃ next, commandsFrom bytes (fuel + 1) pos = ([.sync], none) ∧
      dispatchLoop scr font bytes (fuel + 1) pos s = ⟨.ok (next, s.stats), [(.sync, [])]⟩) ∨
    (∃ cmd next, commandsFrom bytes (fuel + 1) pos =
        (cmd :: (commandsFrom bytes fuel next).1, (commandsFrom bytes fuel next).2) ∧
      dispatchLoop scr font bytes (fuel + 1) pos s =
        ⟨(dispatchLoop scr font bytes fuel next (execute scr font s cmd).2).result,
          (cmd, (execute scr font s cmd).1) ::
            (dispatchLoop scr font bytes fuel next (execute scr font s cmd).2).trace⟩) := by
  rw [commandsFrom, dispatchLoop]
  cases hnext : nextCommand bytes pos with
  | error e => exact .inl ⟨e, rfl, rfl⟩
  | ok item =>
    cases item with
    | none => exact .inr (.inl ⟨pos, rfl, rfl⟩)
    | some found =>
      obtain ⟨cmd, next⟩ := found
      cases cmd with
      | sync => exact .inr (.inr (.inl ⟨next, rfl, rfl⟩))
      | setClipRect c => exact .inr (.inr (.inr ⟨_, next, rfl, rfl⟩))
      | drawRect r => exact .inr (.inr (.inr ⟨_, next, rfl, rfl⟩))
      | drawText x y color size text => exact .inr (.inr (.inr ⟨_, next, rfl, rfl⟩))
      | drawTexture t => exact .inr (.inr (.inr ⟨_, next, rfl, rfl⟩))
      | unknown op n => exact .inr (.inr (.inr ⟨_, next, rfl, rfl⟩))

/-- The loop runs the commands of the list. -/
theorem dispatchLoop_commands (fuel pos : Nat) (s : DispatchState) :
    (dispatchLoop scr font bytes fuel pos s).trace.map Prod.fst = (commandsFrom bytes fuel pos).1 := by
  induction fuel generalizing pos s with
  | zero => rfl
  | succ fuel ih =>
    rcases @dispatchLoop_cases scr font bytes fuel pos s with
      ⟨e, hc, hd⟩ | ⟨at', hc, hd⟩ | ⟨next, hc, hd⟩ | ⟨cmd, next, hc, hd⟩
    · rw [hc, hd]; rfl
    · rw [hc, hd]; rfl
    · rw [hc, hd]; rfl
    · rw [hc, hd, List.map_cons, ih]

end

end Folkering.Gfx
