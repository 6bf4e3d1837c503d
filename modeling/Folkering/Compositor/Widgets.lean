/-
  Clicks on the widgets of a window (userspace/compositor/src/window_manager.rs).

  `draw_widgets`, `hit_test_widgets`, `hit_test_focusable_index` and `nth_focusable` are four recursions over one tree,
  each written out as the source has it.  Coordinates are numbers that do not wrap.  Texts, colours and the focus ring
  are left out.

  **The crux** (`spots`): the tree alone says where each focusable widget stands, and by how many rows the drawing and the
  index test put it further down.  Every one of the four functions is then a search over these spots.
-/
import Mathlib.Data.List.Basic

namespace Folkering.Widgets

open List

/-- What a click can focus: `FocusableKind`. -/
inductive FocusableKind where
  | button (actionId : Nat)
  | textInput (actionId : Nat)
deriving DecidableEq

/-- The widgets of a window: `UiWidget`. -/
inductive UiWidget where
  | label (textLen : Nat)
  | button (labelLen actionId : Nat)
  | vStack (children : List UiWidget) (spacing : Nat)
  | hStack (children : List UiWidget) (spacing : Nat)
  | spacer (height : Nat)
  | textInput (actionId : Nat)

mutual

/-- `widget_height`: an empty HStack has none. -/
def widgetHeight : UiWidget → Nat
  | .label _ => 12
  | .button _ _ | .textInput _ => 20
  | .spacer height => height
  | .vStack children spacing => columnHeight spacing children
  | .hStack children _ => rowHeight children

/-- The sum over the children of a VStack. -/
def columnHeight (spacing : Nat) : List UiWidget → Nat
  | [] => 0
  | c :: cs => widgetHeight c + spacing + columnHeight spacing cs

/-- The maximum over the children of an HStack. -/
def rowHeight : List UiWidget → Nat
  | [] => 0
  | c :: cs => max (widgetHeight c) (rowHeight cs)

end

/-- `widget_width`: a nested stack counts for 100 columns. -/
def widgetWidth : UiWidget → Nat
  | .label textLen => textLen * 8
  | .button labelLen _ => labelLen * 8 + 16
  | .textInput _ => 200
  | .spacer _ => 0
  | .vStack _ _ | .hStack _ _ => 100

/-- The point of a click. -/
structure Click where
  x : Nat
  y : Nat

/-- The click is in the rectangle of 16 rows. -/
def Click.inside (click : Click) (x y width : Nat) : Bool :=
  x ≤ click.x && click.x < x + width && y ≤ click.y && click.y < y + 16

/-! ## `draw_widgets` -/

/-- A rectangle of 16 rows that is filled for a focusable widget. -/
structure Rect where
  kind : FocusableKind
  x : Nat
  y : Nat
  width : Nat
deriving DecidableEq

mutual

/-- A round of the loop: the rectangles, and the `y` of the next round. -/
def drawWidget (maxW : Nat) : UiWidget → Nat → Nat → List Rect × Nat
  | .label _, _, y => ([], y + 12)
  | .button labelLen id, x, y => ([⟨.button id, x, y, min (labelLen * 8 + 16) maxW⟩], y + 20)
  | .textInput id, x, y => ([⟨.textInput id, x, y, min maxW 200⟩], y + 20)
  | .vStack children spacing, x, y => drawColumn maxW spacing children x y
  | .hStack children spacing, x, y =>
    (drawRow maxW spacing children x y, y + if children.isEmpty then 12 else rowHeight children)
  | .spacer height, _, y => ([], y + height)

/-- The loop over a VStack.  The recursive call has a `y` of its own. -/
def drawColumn (maxW spacing : Nat) : List UiWidget → Nat → Nat → List Rect × Nat
  | [], _, y => ([], y)
  | c :: cs, x, y =>
    let rest := drawColumn maxW spacing cs x (y + (widgetHeight c + spacing))
    ((drawWidget maxW c x y).1 ++ rest.1, rest.2)

/-- The loop over an HStack. -/
def drawRow (maxW spacing : Nat) : List UiWidget → Nat → Nat → List Rect
  | [], _, _ => []
  | c :: cs, hx, y => (drawWidget maxW c hx y).1 ++ drawRow maxW spacing cs (hx + (widgetWidth c + spacing)) y

end

/-- `draw_widgets`: the rectangles of the focusable widgets, in the order in which they are filled. -/
def drawWidgets (maxW : Nat) : List UiWidget → Nat → Nat → List Rect
  | [], _, _ => []
  | w :: ws, x, y => (drawWidget maxW w x y).1 ++ drawWidgets maxW ws x (drawWidget maxW w x y).2

/-! ## `hit_test_widgets`: a `return` in the loops is an error -/

/-- What a loop has returned, if it did. -/
def returned {α β : Type} : Except β α → Option β
  | .error b => some b
  | .ok _ => none

mutual

/-- A round of the loop: it returns the kind, or goes on with the next `y`. -/
def hitWidget (click : Click) : UiWidget → Nat → Nat → Except FocusableKind Nat
  | .label _, _, y => .ok (y + 12)
  | .button labelLen id, x, y => if click.inside x y (labelLen * 8 + 16) then .error (.button id) else .ok (y + 20)
  | .textInput id, x, y => if click.inside x y 200 then .error (.textInput id) else .ok (y + 20)
  | .vStack children spacing, x, y => hitColumn click spacing children x y
  | .hStack children spacing, x, y => do
    hitRow click spacing children x y
    return y + rowHeight children
  | .spacer height, _, y => .ok (y + height)

/-- The loop over a VStack: the `y` of the recursive call is dropped. -/
def hitColumn (click : Click) (spacing : Nat) : List UiWidget → Nat → Nat → Except FocusableKind Nat
  | [], _, y => .ok y
  | c :: cs, x, y => do
    let _ ← hitWidget click c x y
    hitColumn click spacing cs x (y + (widgetHeight c + spacing))

/-- The loop over an HStack. -/
def hitRow (click : Click) (spacing : Nat) : List UiWidget → Nat → Nat → Except FocusableKind Unit
  | [], _, _ => .ok ()
  | c :: cs, hx, y => do
    let _ ← hitWidget click c hx y
    hitRow click spacing cs (hx + (widgetWidth c + spacing)) y

end

/-- The loop of `hit_test_widgets`. -/
def hitLoop (click : Click) : List UiWidget → Nat → Nat → Except FocusableKind Nat
  | [], _, y => .ok y
  | w :: ws, x, y => do hitLoop click ws x (← hitWidget click w x y)

/-- `hit_test_widgets`. -/
def hitTestWidgets (widgets : List UiWidget) (x y : Nat) (click : Click) : Option FocusableKind :=
  returned (hitLoop click widgets x y)

/-! ## `hit_test_focusable_index`: `y` and the counter go through the recursion by reference -/

/-- The two references of `inner`. -/
structure Cursor where
  y : Nat
  counter : Nat

mutual

/-- A round of the loop of `inner`: it returns the number, or leaves the cursor behind the widget. -/
def indexWidget (click : Click) : UiWidget → Nat → Cursor → Except Nat Cursor
  | .label _, _, s => .ok { s with y := s.y + 12 }
  | .button labelLen _, x, s =>
    if click.inside x s.y (labelLen * 8 + 16) then .error s.counter else .ok ⟨s.y + 20, s.counter + 1⟩
  | .textInput _, x, s => if click.inside x s.y 200 then .error s.counter else .ok ⟨s.y + 20, s.counter + 1⟩
  | .vStack children spacing, x, s => indexColumn click spacing children x s
  | .hStack children spacing, x, s => do
    let counter ← indexRow click spacing s.y children x s.counter
    return ⟨s.y + rowHeight children, counter⟩
  | .spacer height, _, s => .ok { s with y := s.y + height }

/-- The loop over a VStack: the recursive call has moved `y` already, and the loop moves it once more. -/
def indexColumn (click : Click) (spacing : Nat) : List UiWidget → Nat → Cursor → Except Nat Cursor
  | [], _, s => .ok s
  | c :: cs, x, s => do
    let s ← indexWidget click c x s
    indexColumn click spacing cs x { s with y := s.y + (widgetHeight c + spacing) }

/-- The loop over an HStack: every child starts at `save_y`. -/
def indexRow (click : Click) (spacing saveY : Nat) : List UiWidget → Nat → Nat → Except Nat Nat
  | [], _, counter => .ok counter
  | c :: cs, hx, counter => do
    let s ← indexWidget click c hx ⟨saveY, counter⟩
    indexRow click spacing saveY cs (hx + (widgetWidth c + spacing)) s.counter

end

/-- The loop of `inner` at the top. -/
def indexLoop (click : Click) : List UiWidget → Nat → Cursor → Except Nat Cursor
  | [], _, s => .ok s
  | w :: ws, x, s => do indexLoop click ws x (← indexWidget click w x s)

/-- `hit_test_focusable_index`. -/
def hitTestFocusableIndex (widgets : List UiWidget) (x y : Nat) (click : Click) : Option Nat :=
  returned (indexLoop click widgets x ⟨y, 0⟩)

/-! ## `nth_focusable` -/

mutual

/-- A round of the loop of `inner`: it returns the kind, or goes on with the counter. -/
def nthWidget (target : Nat) : UiWidget → Nat → Except FocusableKind Nat
  | .button _ id, counter => if counter = target then .error (.button id) else .ok (counter + 1)
  | .textInput id, counter => if counter = target then .error (.textInput id) else .ok (counter + 1)
  | .vStack children _, counter | .hStack children _, counter => nthLoop target children counter
  | .label _, counter | .spacer _, counter => .ok counter

/-- The loop of `inner`. -/
def nthLoop (target : Nat) : List UiWidget → Nat → Except FocusableKind Nat
  | [], counter => .ok counter
  | w :: ws, counter => do nthLoop target ws (← nthWidget target w counter)

end

/-- `nth_focusable`. -/
def nthFocusable (widgets : List UiWidget) (n : Nat) : Option FocusableKind :=
  returned (nthLoop n widgets 0)

/-! ## Where the tree puts its focusable widgets -/

mutual

/-- The rows by which the index test runs ahead behind a widget: a VStack counts each of its children once more. -/
def ahead : UiWidget → Nat
  | .vStack children _ => aheadAll children
  | _ => 0

/-- The rows of the children, and those by which it runs ahead behind them. -/
def aheadAll : List UiWidget → Nat
  | [] => 0
  | c :: cs => widgetHeight c + ahead c + aheadAll cs

end

/-- The rows `draw_widgets` leaves behind a widget in addition to its height: 12 behind an empty HStack. -/
def emptyRow : UiWidget → Nat
  | .hStack [] _ => 12
  | _ => 0

/-- A focusable widget with the corner at which the heights and widths of the tree put it.  The drawing puts it `lower`
    rows further down, the index test `pushed` rows. -/
structure Spot where
  kind : FocusableKind
  x : Nat
  y : Nat
  width : Nat
  lower : Nat
  pushed : Nat
deriving DecidableEq

mutual

/-- The spots of a widget. -/
def widgetSpots (lower : Nat) : UiWidget → Nat → Nat → Nat → List Spot
  | .button labelLen id, x, y, pushed => [⟨.button id, x, y, labelLen * 8 + 16, lower, pushed⟩]
  | .textInput id, x, y, pushed => [⟨.textInput id, x, y, 200, lower, pushed⟩]
  | .vStack children spacing, x, y, pushed => columnSpots lower spacing children x y pushed
  | .hStack children spacing, x, y, pushed => rowSpots lower spacing children x y pushed
  | .label _, _, _, _ | .spacer _, _, _, _ => []

/-- In a column a child stands below those before it, and their heights push it once more in the index test. -/
def columnSpots (lower spacing : Nat) : List UiWidget → Nat → Nat → Nat → List Spot
  | [], _, _, _ => []
  | c :: cs, x, y, pushed => widgetSpots lower c x y pushed ++
      columnSpots lower spacing cs x (y + (widgetHeight c + spacing)) (pushed + (widgetHeight c + ahead c))

/-- In a row a child stands to the right of those before it. -/
def rowSpots (lower spacing : Nat) : List UiWidget → Nat → Nat → Nat → List Spot
  | [], _, _, _ => []
  | c :: cs, x, y, pushed => widgetSpots lower c x y pushed ++
      rowSpots lower spacing cs (x + (widgetWidth c + spacing)) y pushed

end

/-- The spots of a window: behind each of its widgets the drawing falls behind by the empty rows, and the index test runs
    ahead by what a column has pushed it. -/
def spots : List UiWidget → Nat → Nat → Nat → Nat → List Spot
  | [], _, _, _, _ => []
  | w :: ws, x, y, lower, pushed => widgetSpots lower w x y pushed ++
      spots ws x (y + widgetHeight w) (lower + emptyRow w) (pushed + ahead w)

/-- The click is in the rectangle of a spot moved down by some rows. -/
def Spot.under (s : Spot) (click : Click) (rows : Nat) : Bool := click.inside s.x (s.y + rows) s.width

/-! ## The four functions are searches over the spots -/

/-- The rectangle that is filled for a spot. -/
def Spot.rect (maxW : Nat) (s : Spot) : Rect := ⟨s.kind, s.x, s.y + s.lower, min s.width maxW⟩

mutual

/-- Drawing follows the spots. -/
theorem drawWidget_eq (maxW lower pushed : Nat) : ∀ w x y, drawWidget maxW w x (y + lower) =
    ((widgetSpots lower w x y pushed).map (Spot.rect maxW), y + widgetHeight w + (lower + emptyRow w))
  | .label _, x, y | .spacer _, x, y | .button _ _, x, y => by
    simp [drawWidget, widgetSpots, widgetHeight, emptyRow, Spot.rect]
    omega
  | .textInput _, x, y => by
    simp [drawWidget, widgetSpots, widgetHeight, emptyRow, Spot.rect, Nat.min_comm]
    omega
  | .vStack children spacing, x, y => by
    rw [drawWidget, drawColumn_eq maxW lower pushed spacing children x y]
    simp [widgetSpots, widgetHeight, emptyRow]
  | .hStack children spacing, x, y => by
    rw [drawWidget, drawRow_eq maxW lower pushed spacing children x y, widgetSpots, widgetHeight]
    cases children with
    | nil => simp [rowHeight, emptyRow, Nat.add_assoc]
    | cons c cs => simp [emptyRow]; omega

theorem drawColumn_eq (maxW lower pushed spacing : Nat) : ∀ cs x y, drawColumn maxW spacing cs x (y + lower) =
    ((columnSpots lower spacing cs x y pushed).map (Spot.rect maxW), y + columnHeight spacing cs + lower)
  | [], x, y => rfl
  | c :: cs, x, y => by
    have hy : y + lower + (widgetHeight c + spacing) = y + (widgetHeight c + spacing) + lower := by omega
    rw [drawColumn, drawWidget_eq maxW lower pushed c x y, hy,
      drawColumn_eq maxW lower (pushed + (widgetHeight c + ahead c)) spacing cs x _, columnSpots, map_append, columnHeight]
    simp [Nat.add_assoc]

theorem drawRow_eq (maxW lower pushed spacing : Nat) : ∀ cs x y, drawRow maxW spacing cs x (y + lower) =
    (rowSpots lower spacing cs x y pushed).map (Spot.rect maxW)
  | [], x, y => rfl
  | c :: cs, x, y => by
    rw [drawRow, drawWidget_eq maxW lower pushed c x y, drawRow_eq maxW lower pushed spacing cs _ y, rowSpots, map_append]

end

/-- The rectangles are those of the spots, each moved down by its `lower` rows. -/
theorem drawWidgets_eq (maxW : Nat) : ∀ ws x y lower pushed,
    drawWidgets maxW ws x (y + lower) = (spots ws x y lower pushed).map (Spot.rect maxW)
  | [], _, _, _, _ => rfl
  | w :: ws, x, y, lower, pushed => by
    rw [drawWidgets, drawWidget_eq maxW lower pushed w x y, drawWidgets_eq maxW ws x _ _ (pushed + ahead w), spots,
      map_append]

/-- A search that returns what it has found, and otherwise goes on with `next`. -/
def search {α β : Type} (found : Option β) (next : α) : Except β α :=
  found.elim (.ok next) .error

/-- Two searches in a row return what the first of them finds. -/
theorem search_bind {α β γ : Type} {a b : Option β} {next : α} {last : γ} {f : α → Except β γ}
    (hf : a = none → f next = search b last) : search a next >>= f = search (a.or b) last := by
  cases a with
  | none => exact hf rfl
  | some b => rfl

theorem search_pure {α β γ : Type} (a : Option β) (next : α) (f : α → γ) :
    (search a next >>= fun n => pure (f n)) = search a (f next) := by
  cases a <;> rfl

theorem returned_search_bind {α β γ : Type} (a : Option β) (next : α) (f : α → Except β γ) :
    returned (search a next >>= f) = a.or (returned (f next)) := by
  cases a <;> rfl

/-! ### `hit_test_widgets` -/

/-- The kind of the first spot that is under the click where the heights put it. -/
def hitKind (click : Click) (ss : List Spot) : Option FocusableKind := (ss.find? (·.under click 0)).map Spot.kind

theorem hitKind_append (click : Click) (l l' : List Spot) :
    hitKind click (l ++ l') = (hitKind click l).or (hitKind click l') := by
  rw [hitKind, find?_append, Option.map_or]
  rfl

theorem hitKind_one (click : Click) (s : Spot) (next : Nat) : search (hitKind click [s]) next =
    if click.inside s.x s.y s.width then .error s.kind else .ok next := by
  cases h : click.inside s.x s.y s.width <;> simp [search, hitKind, Spot.under, h]

mutual

/-- The hit test is a search over the spots. -/
theorem hitWidget_eq (click : Click) (lower pushed : Nat) : ∀ w x y, hitWidget click w x y =
    search (hitKind click (widgetSpots lower w x y pushed)) (y + widgetHeight w)
  | .label _, x, y | .spacer _, x, y => rfl
  | .button _ _, x, y | .textInput _, x, y => by rw [widgetSpots, hitKind_one, hitWidget, widgetHeight]
  | .vStack children spacing, x, y => hitColumn_eq click lower pushed spacing children x y
  | .hStack children spacing, x, y => by
    rw [hitWidget, hitRow_eq click lower pushed spacing children x y]
    exact search_pure _ () fun _ => y + rowHeight children

theorem hitColumn_eq (click : Click) (lower pushed spacing : Nat) : ∀ cs x y, hitColumn click spacing cs x y =
    search (hitKind click (columnSpots lower spacing cs x y pushed)) (y + columnHeight spacing cs)
  | [], x, y => rfl
  | c :: cs, x, y => by
    rw [hitColumn, hitWidget_eq click lower pushed c x y, columnSpots, hitKind_append, columnHeight,
      ← Nat.add_assoc y (widgetHeight c + spacing)]
    exact search_bind fun _ => hitColumn_eq click lower _ spacing cs x _

theorem hitRow_eq (click : Click) (lower pushed spacing : Nat) : ∀ cs x y, hitRow click spacing cs x y =
    search (hitKind click (rowSpots lower spacing cs x y pushed)) ()
  | [], x, y => rfl
  | c :: cs, x, y => by
    rw [hitRow, hitWidget_eq click lower pushed c x y, rowSpots, hitKind_append]
    exact search_bind fun _ => hitRow_eq click lower pushed spacing cs _ y

end

/-- `hit_test_widgets` looks for each widget where the heights put it. -/
theorem hitTestWidgets_eq (click : Click) : ∀ ws x y lower pushed,
    hitTestWidgets ws x y click = hitKind click (spots ws x y lower pushed)
  | [], _, _, _, _ => rfl
  | w :: ws, x, y, lower, pushed => by
    rw [hitTestWidgets, hitLoop, hitWidget_eq click lower pushed w x y, returned_search_bind, spots, hitKind_append,
      ← hitTestWidgets_eq click ws x _ (lower + emptyRow w) (pushed + ahead w)]
    rfl

/-! ### `hit_test_focusable_index` -/

/-- The number, from `counter` on, of the first spot that is under the click where the index test looks. -/
def indexOf (click : Click) (counter : Nat) (ss : List Spot) : Option Nat :=
  (ss.findIdx? fun s => s.under click s.pushed).map (· + counter)

theorem indexOf_append (click : Click) (counter : Nat) (l l' : List Spot) :
    indexOf click counter (l ++ l') = (indexOf click counter l).or (indexOf click (counter + l.length) l') := by
  simp only [indexOf, findIdx?_append, Option.map_or, Option.map_map]
  congr 2
  funext i
  simp only [Function.comp_apply]
  omega

theorem indexOf_one (click : Click) (counter : Nat) (s : Spot) (next : Cursor) : search (indexOf click counter [s]) next =
    if click.inside s.x (s.y + s.pushed) s.width then .error counter else .ok next := by
  cases h : click.inside s.x (s.y + s.pushed) s.width <;> simp [search, indexOf, Spot.under, findIdx?_cons, h]

mutual

/-- So is the search for the index. -/
theorem indexWidget_eq (click : Click) (lower : Nat) : ∀ w x y pushed counter,
    indexWidget click w x ⟨y + pushed, counter⟩ = search (indexOf click counter (widgetSpots lower w x y pushed))
      ⟨y + widgetHeight w + (pushed + ahead w), counter + (widgetSpots lower w x y pushed).length⟩
  | .label _, x, y, pushed, counter | .spacer _, x, y, pushed, counter => by
    simp [indexWidget, widgetSpots, indexOf, search, widgetHeight, ahead]
    omega
  | .button _ _, x, y, pushed, counter | .textInput _, x, y, pushed, counter => by
    rw [widgetSpots, indexOf_one, indexWidget, widgetHeight, ahead, Nat.add_right_comm]
    · rfl
    all_goals nofun
  | .vStack children spacing, x, y, pushed, counter => indexColumn_eq click lower spacing children x y pushed counter
  | .hStack children spacing, x, y, pushed, counter => by
    rw [indexWidget, indexRow_eq click lower spacing children x y pushed counter, widgetSpots, search_pure, widgetHeight]
    simp [ahead, Nat.add_right_comm]

theorem indexColumn_eq (click : Click) (lower spacing : Nat) : ∀ cs x y pushed counter,
    indexColumn click spacing cs x ⟨y + pushed, counter⟩ =
      search (indexOf click counter (columnSpots lower spacing cs x y pushed))
        ⟨y + columnHeight spacing cs + (pushed + aheadAll cs), counter + (columnSpots lower spacing cs x y pushed).length⟩
  | [], x, y, pushed, counter => rfl
  | c :: cs, x, y, pushed, counter => by
    rw [indexColumn, indexWidget_eq click lower c x y pushed counter, columnSpots, indexOf_append, columnHeight, aheadAll,
      length_append]
    refine search_bind fun _ => ?_
    have hy : y + widgetHeight c + (pushed + ahead c) + (widgetHeight c + spacing) =
      y + (widgetHeight c + spacing) + (pushed + (widgetHeight c + ahead c)) := by omega
    simp only [hy]
    rw [indexColumn_eq click lower spacing cs x _ _ _]
    congr 2 <;> omega

theorem indexRow_eq (click : Click) (lower spacing : Nat) : ∀ cs x y pushed counter,
    indexRow click spacing (y + pushed) cs x counter = search (indexOf click counter (rowSpots lower spacing cs x y pushed))
      (counter + (rowSpots lower spacing cs x y pushed).length)
  | [], x, y, pushed, counter => rfl
  | c :: cs, x, y, pushed, counter => by
    rw [indexRow, indexWidget_eq click lower c x y pushed counter, rowSpots, indexOf_append, length_append,
      ← Nat.add_assoc counter]
    exact search_bind fun _ => indexRow_eq click lower spacing cs _ y pushed _

end

theorem indexLoop_eq (click : Click) : ∀ ws x y lower pushed counter,
    returned (indexLoop click ws x ⟨y + pushed, counter⟩) = indexOf click counter (spots ws x y lower pushed)
  | [], _, _, _, _, _ => rfl
  | w :: ws, x, y, lower, pushed, counter => by
    rw [indexLoop, indexWidget_eq click lower w x y pushed counter, returned_search_bind, spots, indexOf_append,
      indexLoop_eq click ws x _ (lower + emptyRow w) _ _]

/-! ### `nth_focusable` -/

/-- The kind with the number `n`, if the numbers of the spots start at `counter`. -/
def kindAt (n counter : Nat) (ss : List Spot) : Option FocusableKind := (ss.map Spot.kind)[n - counter]?

/-- Numbers go on behind the first part. -/
theorem kindAt_append (n counter : Nat) (l l' : List Spot) :
    kindAt n counter (l ++ l') = (kindAt n counter l).or (kindAt n (counter + l.length) l') := by
  simp only [kindAt, map_append]
  by_cases hn : n - counter < (l.map Spot.kind).length
  · rw [getElem?_append_left hn, getElem?_eq_getElem hn, Option.some_or]
  · have hl : (l.map Spot.kind).length ≤ n - counter := by omega
    rw [getElem?_append_right hl, getElem?_eq_none hl, Option.none_or, length_map, Nat.sub_sub]

theorem le_of_kindAt_none {n counter : Nat} {l : List Spot} (h : counter ≤ n) (hl : kindAt n counter l = none) :
    counter + l.length ≤ n := by
  have hlen := getElem?_eq_none_iff.mp hl
  rw [length_map] at hlen
  omega

theorem kindAt_one {n counter : Nat} (h : counter ≤ n) (s : Spot) : search (kindAt n counter [s]) (counter + 1) =
    if counter = n then .error s.kind else .ok (counter + 1) := by
  rcases Nat.lt_or_eq_of_le h with hlt | rfl
  · have hpos : n - counter = n - counter - 1 + 1 := by omega
    rw [kindAt, hpos, if_neg (Nat.ne_of_lt hlt)]
    simp [search]
  · simp [kindAt, search]

mutual

/-- And the search by number. -/
theorem nthWidget_eq (n lower : Nat) : ∀ w x y pushed counter, counter ≤ n → nthWidget n w counter =
    search (kindAt n counter (widgetSpots lower w x y pushed)) (counter + (widgetSpots lower w x y pushed).length)
  | .label _, _, _, _, _, _ | .spacer _, _, _, _, _, _ => by simp [nthWidget, widgetSpots, kindAt, search]
  | .button _ _, _, _, _, _, h | .textInput _, _, _, _, _, h => by
    rw [widgetSpots, length_singleton, kindAt_one h, nthWidget]
  | .vStack children spacing, x, y, pushed, counter, h => nthColumn_eq n lower spacing children x y pushed counter h
  | .hStack children spacing, x, y, pushed, counter, h => nthRow_eq n lower spacing children x y pushed counter h

theorem nthColumn_eq (n lower spacing : Nat) : ∀ cs x y pushed counter, counter ≤ n → nthLoop n cs counter =
    search (kindAt n counter (columnSpots lower spacing cs x y pushed))
      (counter + (columnSpots lower spacing cs x y pushed).length)
  | [], _, _, _, _, _ => rfl
  | c :: cs, x, y, pushed, counter, h => by
    rw [nthLoop, nthWidget_eq n lower c x y pushed counter h, columnSpots, kindAt_append, length_append,
      ← Nat.add_assoc counter]
    exact search_bind fun hnone => nthColumn_eq n lower spacing cs x _ _ _ (le_of_kindAt_none h hnone)

theorem nthRow_eq (n lower spacing : Nat) : ∀ cs x y pushed counter, counter ≤ n → nthLoop n cs counter =
    search (kindAt n counter (rowSpots lower spacing cs x y pushed))
      (counter + (rowSpots lower spacing cs x y pushed).length)
  | [], _, _, _, _, _ => rfl
  | c :: cs, x, y, pushed, counter, h => by
    rw [nthLoop, nthWidget_eq n lower c x y pushed counter h, rowSpots, kindAt_append, length_append,
      ← Nat.add_assoc counter]
    exact search_bind fun hnone => nthRow_eq n lower spacing cs _ y pushed _ (le_of_kindAt_none h hnone)

end

theorem nthLoop_eq (n : Nat) : ∀ ws x y lower pushed counter, counter ≤ n →
    returned (nthLoop n ws counter) = kindAt n counter (spots ws x y lower pushed)
  | [], _, _, _, _, _, _ => rfl
  | w :: ws, x, y, lower, pushed, counter, h => by
    rw [nthLoop, nthWidget_eq n lower w x y pushed counter h, returned_search_bind, spots, kindAt_append]
    cases hw : kindAt n counter (widgetSpots lower w x y pushed) with
    | some kind => rfl
    | none => rw [nthLoop_eq n ws x _ (lower + emptyRow w) (pushed + ahead w) _ (le_of_kindAt_none h hw)]

/-- The numbers of `nth_focusable` are those of the spots. -/
theorem nthFocusable_eq (ws : List UiWidget) (x y n : Nat) :
    nthFocusable ws n = ((spots ws x y 0 0).map Spot.kind)[n]? :=
  nthLoop_eq n ws x y 0 0 0 (Nat.zero_le n)

/-! ## Which clicks reach the widget that is drawn there -/

/-- The spot with the number `i` is the first one under the click if each is moved down by its rows. -/
def First (click : Click) (rows : Spot → Nat) (ss : List Spot) (i : Nat) (s : Spot) : Prop :=
  ss[i]? = some s ∧ s.under click (rows s) ∧ ∀ t ∈ ss.take i, ¬ t.under click (rows t)

/-- The click reaches what is drawn under it.  The first spot under the click as it is drawn is also under it as the
    columns have pushed it, no spot before it has been pushed there, and the first one under the click at its own height
    is of the same kind.  Where nothing is drawn under the click, no spot is there either way. -/
def Reached (click : Click) (ss : List Spot) : Prop :=
  (∀ i s, First click Spot.lower ss i s → s.under click s.pushed ∧ (∀ t ∈ ss.take i, ¬ t.under click t.pushed) ∧
    ∃ j t, First click (fun _ => 0) ss j t ∧ t.kind = s.kind) ∧
  ((∀ s ∈ ss, ¬ s.under click s.lower) → ∀ s ∈ ss, ¬ s.under click s.pushed ∧ ¬ s.under click 0)

/-- The first spot under the click, as a search. -/
theorem first_iff {click : Click} {rows : Spot → Nat} {ss : List Spot} {i : Nat} {s : Spot} :
    First click rows ss i s ↔ ss.findIdx? (fun s => s.under click (rows s)) = some i ∧ ss[i]? = some s := by
  rw [findIdx?_eq_some_iff_getElem]
  constructor
  · rintro ⟨hs, hu, hpre⟩
    obtain ⟨hi, rfl⟩ := List.getElem?_eq_some_iff.mp hs
    exact ⟨⟨hi, hu, fun j hj => hpre _ (mem_take_iff_getElem.mpr ⟨j, by omega, rfl⟩)⟩, hs⟩
  · rintro ⟨⟨hi, hu, hpre⟩, hs⟩
    obtain ⟨_, rfl⟩ := List.getElem?_eq_some_iff.mp hs
    refine ⟨hs, hu, fun t ht => ?_⟩
    obtain ⟨j, hj, rfl⟩ := mem_take_iff_getElem.mp ht
    exact hpre j (by omega)

/-- What the hit test answers. -/
theorem hitKind_eq_some_iff {click : Click} {ss : List Spot} {kind : FocusableKind} :
    hitKind click ss = some kind ↔ ∃ j t, First click (fun _ => 0) ss j t ∧ t.kind = kind := by
  rw [hitKind, find?_eq_bind_findIdx?_getElem?]
  simp only [Option.map_eq_some_iff, Option.bind_eq_some_iff, first_iff]
  constructor
  · rintro ⟨t, ⟨j, hj, ht⟩, hk⟩
    exact ⟨j, t, ⟨hj, ht⟩, hk⟩
  · rintro ⟨j, t, ⟨hj, ht⟩, hk⟩
    exact ⟨t, ⟨j, hj, ht⟩, hk⟩

/-- In terms of searches: the index test comes to the drawn spot, and the hit test to one of its kind. -/
theorem reached_iff {click : Click} {ss : List Spot} : Reached click ss ↔
    ss.findIdx? (fun s => s.under click s.pushed) = ss.findIdx? (fun s => s.under click s.lower) ∧
      hitKind click ss = (ss.find? fun s => s.under click s.lower).map Spot.kind := by
  cases hd : ss.findIdx? (fun s => s.under click s.lower) with
  | none =>
    have hnone : ∀ s ∈ ss, ¬ s.under click s.lower := fun s hs => by
      rw [findIdx?_eq_none_iff.mp hd s hs]; nofun
    have hfirst : ∀ i s, ¬ First click Spot.lower ss i s := fun i s h => by
      have := (first_iff.mp h).1
      rw [hd] at this
      cases this
    rw [find?_eq_none.mpr hnone, Option.map_none, findIdx?_eq_none_iff, hitKind, Option.map_eq_none_iff, find?_eq_none]
    constructor
    · exact fun h => ⟨fun s hs => Bool.eq_false_iff.mpr (h.2 hnone s hs).1, fun s hs => (h.2 hnone s hs).2⟩
    · exact fun h => ⟨fun i s hi => (hfirst i s hi).elim,
        fun _ s hs => ⟨Bool.eq_false_iff.mp (h.1 s hs), h.2 s hs⟩⟩
  | some i =>
    obtain ⟨hi, hu, -⟩ := findIdx?_eq_some_iff_getElem.mp hd
    have hs : ss[i]? = some ss[i] := getElem?_eq_getElem hi
    have hfirst : First click Spot.lower ss i ss[i] := first_iff.mpr ⟨hd, hs⟩
    have hfind : (ss.find? fun s => s.under click s.lower).map Spot.kind = some ss[i].kind := by
      rw [find?_eq_bind_findIdx?_getElem?, hd, Option.bind_some, hs, Option.map_some]
    rw [hfind, hitKind_eq_some_iff]
    constructor
    · intro h
      obtain ⟨hp, hpre, hkind⟩ := h.1 i _ hfirst
      exact ⟨(first_iff.mp ⟨hs, hp, hpre⟩).1, hkind⟩
    · rintro ⟨hp, hkind⟩
      have hpushed : First click Spot.pushed ss i ss[i] := first_iff.mpr ⟨hp, hs⟩
      refine ⟨fun j s hj => ?_, fun hnone => (hnone _ (getElem_mem hi) hu).elim⟩
      obtain ⟨hj, hs'⟩ := first_iff.mp hj
      obtain rfl : i = j := Option.some.inj (hd.symm.trans hj)
      obtain rfl : ss[i] = s := Option.some.inj (hs.symm.trans hs')
      exact ⟨hpushed.2.1, hpushed.2.2, hkind⟩

/-- The number of the first rectangle around the click. -/
def Click.target (click : Click) (rects : List Rect) : Option Nat :=
  rects.findIdx? fun r => click.inside r.x r.y r.width

/-- What is under the click on the screen. -/
theorem target_drawWidgets {ws : List UiWidget} {x y maxW : Nat} (click : Click)
    (hfit : ∀ s ∈ spots ws x y 0 0, s.width ≤ maxW) :
    click.target (drawWidgets maxW ws x y) = (spots ws x y 0 0).findIdx? fun s => s.under click s.lower := by
  have hclip : (spots ws x y 0 0).map (Spot.rect maxW) =
      (spots ws x y 0 0).map fun s => ⟨s.kind, s.x, s.y + s.lower, s.width⟩ :=
    map_congr_left fun s hs => by rw [Spot.rect, Nat.min_eq_left (hfit s hs)]
  have hd := drawWidgets_eq maxW ws x y 0 0
  rw [Nat.add_zero, hclip] at hd
  rw [hd, Click.target, findIdx?_map]
  rfl

end Folkering.Widgets
