/-
  The machine under the memory calls: frames, addresses, page tables.

  The page-table walk is code of the `x86_64` crate and not the kernel's.  What the kernel sees of it is
    * `Half`         — the tables and page entries of one half of an address space.  The lower half belongs to one task,
                       the upper half is the kernel's and shared by all;
    * `Platform`     — the allocator's two functions, the address types, and the crate's `map_to`, `unmap` and
                       `translate_page` on a half;
    * `PlatformLaws` — what is assumed of the crate.  All results about the memory calls rest on these laws.
  `pcPlatform` is a walk that has them: four levels, with a table or a 2 MiB page at each entry above the last level.
-/
import Mathlib
import Folkering.Capability.MapPhysical
import Folkering.Physical.Model

namespace Folkering.Memory

open Function

open Capability (AddressTypes AddressLaws PageTableFlags Panic)

/-! ## Page tables -/

/-- `HUGE_PAGE_SIZE`. -/
def hugePageSize : Nat := 2 * 1024 * 1024

/-- `HUGE_PAGE_ORDER`. -/
def hugeOrder : Nat := 9

/-- The size of a page of either kind. -/
def blockSize (huge : Bool) : Nat := if huge then hugePageSize else 4096

/-- A virtual page of one of the two sizes, by its first address. -/
structure Page where
  huge : Bool
  start : Nat
deriving Repr, DecidableEq

/-- The page of a size that has an address. -/
def pageAround (huge : Bool) (addr : Nat) : Page := ⟨huge, addr / blockSize huge * blockSize huge⟩

/-- A present page entry. -/
structure Pte where
  frame : Nat
  flags : PageTableFlags
deriving Repr, DecidableEq

/-- Flags with the rights of others added, as the walk does to the entries it passes. -/
def widen (flags others : PageTableFlags) : PageTableFlags :=
  { flags with writable := flags.writable || others.writable
               userAccessible := flags.userAccessible || others.userAccessible }

/-- One half of an address space: the frames of its tables, by level and index, and its page entries. -/
structure Half where
  tables : Nat × Nat → Option Nat
  leaves : Page → Option Pte

/-- A half without tables. -/
def Half.empty : Half := { tables := fun _ => none, leaves := fun _ => none }

/-- The frame that a page is mapped to. -/
def Half.frameAt (h : Half) (page : Page) : Option Nat := (h.leaves page).map Pte.frame

/-- A page is taken out. -/
def Half.clear (h : Half) (page : Page) : Half := { h with leaves := update h.leaves page none }

/-! ## The platform -/

/-- `alloc_pages` and `free_pages`, by order; order 0 is `alloc_page`. -/
structure FrameOps (α : Type) where
  alloc : α → Nat → Option Nat × α
  free : α → Nat → Nat → Except Physical.Panic α

/-- What the memory calls are built on. -/
structure Platform (α : Type) extends FrameOps α, AddressTypes where
  /-- `Mapper::map_to`, which takes frames for tables -/
  mapTo : Half → Page → Pte → α → Bool × Half × α
  /-- `Mapper::unmap`: the frame, if the page was mapped -/
  unmap : Half → Page → Option Nat × Half
  /-- `Mapper::translate_page` -/
  translatePage : Half → Page → Option Nat

/-- The allocator after some allocations of single frames. -/
def Draws {α : Type} (A : FrameOps α) : α → α → Prop := Relation.ReflTransGen fun a a' => a' = (A.alloc a 0).2

/-- What `map_to` may do to the entries: write the new one where there was none, or add rights to a huge page that it
    meets on its way. -/
def Mapped (h : Half) (page : Page) (pte : Pte) (h' : Half) : Prop :=
  ∀ q, h'.leaves q = h.leaves q ∨ (q = page ∧ h.leaves q = none ∧ h'.leaves q = some pte) ∨
    q.huge = true ∧ ∃ old, h.leaves q = some old ∧ h'.leaves q = some { old with flags := widen old.flags pte.flags }

/-- What is assumed of the crate. -/
structure PlatformLaws {α : Type} (A : Platform α) : Prop extends AddressLaws A.toAddressTypes where
  /-- frames for tables come from the allocator -/
  mapTo_draws (h : Half) (page : Page) (pte : Pte) (a : α) : Draws A.toFrameOps a (A.mapTo h page pte a).2.2
  /-- `map_to` changes no other entry, but for the rights of a huge page in the way -/
  mapTo_mapped (h : Half) (page : Page) (pte : Pte) (a : α) : Mapped h page pte (A.mapTo h page pte a).2.1
  /-- when it succeeds the page was free and is mapped -/
  mapTo_ok {h : Half} {page : Page} {pte : Pte} {a : α} (hok : (A.mapTo h page pte a).1 = true) :
    h.leaves page = none ∧ (A.mapTo h page pte a).2.1.leaves page = some pte
  /-- `unmap` takes the page out, if it is mapped, and returns its frame -/
  unmap_eq (h : Half) (page : Page) : A.unmap h page = (h.frameAt page, h.clear page)
  /-- `translate_page` reads the entry -/
  translate_eq (h : Half) (page : Page) : A.translatePage h page = h.frameAt page

section

variable {h h' : Half} {page : Page} {pte : Pte}

/-- `map_to` moves no frame. -/
theorem Mapped.frameAt (hm : Mapped h page pte h') (q : Page) :
    h'.frameAt q = h.frameAt q ∨ q = page ∧ h.leaves q = none ∧ h'.leaves q = some pte := by
  unfold Half.frameAt
  rcases hm q with heq | hnew | ⟨-, old, hold, hnew⟩
  · exact .inl (by rw [heq])
  · exact .inr hnew
  · exact .inl (by rw [hold, hnew]; rfl)

end

/-! ## A walk -/

section

variable {α : Type}

/-- The index of the entry of a level on the way to an address: level 3 is an entry of the PML4, level 1 of a PD. -/
def tableIndex (start level : Nat) : Nat := start % 2 ^ 48 / 2 ^ (12 + 9 * level)

/-- The table at an entry; it is made where there is none. -/
def nextTable (A : FrameOps α) (h : Half) (start level : Nat) (a : α) : Bool × Half × α :=
  if (h.tables (level, tableIndex start level)).isSome then (true, h, a)
  else
    match A.alloc a 0 with
    | (none, a) => (false, h, a)
    | (some frame, a) => (true, { h with tables := update h.tables (level, tableIndex start level) (some frame) }, a)

/-- The tables of some levels, from above. -/
def walkTables (A : FrameOps α) (start : Nat) : List Nat → Half → α → Bool × Half × α
  | [], h, a => (true, h, a)
  | level :: rest, h, a =>
    match nextTable A h start level a with
    | (false, h, a) => (false, h, a)
    | (true, h, a) => walkTables A start rest h a

/-- A page entry is written where there is none. -/
def writeLeaf (page : Page) (pte : Pte) : Bool × Half × α → Bool × Half × α
  | (false, h, a) => (false, h, a)
  | (true, h, a) =>
    if (h.leaves page).isSome then (false, h, a) else (true, { h with leaves := update h.leaves page (some pte) }, a)

/-- `map_to`: a huge page is written into a PD that has no table there; the walk to a small page ends at a huge page,
    whose entry gets the rights that a table would. -/
def walkTo (A : FrameOps α) (h : Half) (page : Page) (pte : Pte) (a : α) : Bool × Half × α :=
  match walkTables A page.start [3, 2] h a with
  | (false, h, a) => (false, h, a)
  | (true, h, a) =>
    if page.huge then
      if (h.tables (1, tableIndex page.start 1)).isSome then (false, h, a) else writeLeaf page pte (true, h, a)
    else
      match h.leaves (pageAround true page.start) with
      | some old =>
        let old := { old with flags := widen old.flags pte.flags }
        (false, { h with leaves := update h.leaves (pageAround true page.start) (some old) }, a)
      | none => writeLeaf page pte (walkTables A page.start [1] h a)

/-- The kernel's allocator, the address types and the walk. -/
def pcPlatform (A : FrameOps α) : Platform α where
  toFrameOps := A
  toAddressTypes := Capability.x86Addresses
  mapTo := walkTo A
  unmap h page := (h.frameAt page, h.clear page)
  translatePage := Half.frameAt

/-- The tables change, the entries do not. -/
theorem walkTables_spec (A : FrameOps α) (start : Nat) (levels : List Nat) (h : Half) (a : α) :
    (walkTables A start levels h a).2.1.leaves = h.leaves ∧ Draws A a (walkTables A start levels h a).2.2 := by
  induction levels generalizing h a with
  | nil => exact ⟨rfl, .refl⟩
  | cons level rest ih =>
    have hstep : (nextTable A h start level a).2.1.leaves = h.leaves ∧ Draws A a (nextTable A h start level a).2.2 := by
      unfold nextTable
      split
      · exact ⟨rfl, .refl⟩
      · cases halloc : A.alloc a 0 with
        | mk frame a' =>
          have hdraw : Draws A a a' := .single (by rw [halloc])
          cases frame <;> exact ⟨rfl, hdraw⟩
    unfold walkTables
    generalize hnext : nextTable A h start level a = r at hstep
    obtain ⟨ok, h', a'⟩ := r
    cases ok with
    | false => exact hstep
    | true => exact ⟨(ih h' a').1.trans hstep.1, hstep.2.trans (ih h' a').2⟩

/-- What the walk does to the frames and the entries. -/
structure Walked (A : FrameOps α) (h : Half) (page : Page) (pte : Pte) (a : α) (r : Bool × Half × α) : Prop where
  draws : Draws A a r.2.2
  mapped : Mapped h page pte r.2.1
  ok : r.1 = true → h.leaves page = none ∧ r.2.1.leaves page = some pte

/-- A walk that stops before it changes an entry. -/
theorem Walked.refused {A : FrameOps α} {h h' : Half} {page : Page} {pte : Pte} {a a' : α} (hd : Draws A a a')
    (hl : h'.leaves = h.leaves) : Walked A h page pte a (false, h', a') :=
  ⟨hd, fun q => .inl (by rw [hl]), fun h => by cases h⟩

/-- The entry is written behind a walk that kept the entries. -/
theorem walked_writeLeaf {A : FrameOps α} {h : Half} {page : Page} {pte : Pte} {a : α} {r : Bool × Half × α}
    (hd : Draws A a r.2.2) (hl : r.2.1.leaves = h.leaves) : Walked A h page pte a (writeLeaf page pte r) := by
  obtain ⟨ok, h', a'⟩ := r
  cases ok with
  | false => exact .refused hd hl
  | true =>
    rw [writeLeaf]
    by_cases hused : (h'.leaves page).isSome = true
    · rw [if_pos hused]
      exact .refused hd hl
    · rw [if_neg hused]
      have hfree : h.leaves page = none := by
        rw [← hl]
        exact Option.not_isSome_iff_eq_none.mp hused
      refine ⟨hd, fun q => ?_, fun _ => ⟨hfree, update_self _ _ _⟩⟩
      by_cases hq : q = page
      · subst hq
        exact .inr (.inl ⟨rfl, hfree, update_self _ _ _⟩)
      · refine .inl ?_
        show update h'.leaves page (some pte) q = _
        rw [update_of_ne hq]
        exact congrFun hl q

/-- The walk has the laws of `map_to`. -/
theorem walked_walkTo (A : FrameOps α) (h : Half) (page : Page) (pte : Pte) (a : α) :
    Walked A h page pte a (walkTo A h page pte a) := by
  obtain ⟨hl, hd⟩ := walkTables_spec A page.start [3, 2] h a
  unfold walkTo
  generalize walkTables A page.start [3, 2] h a = r at hl hd
  obtain ⟨ok, h', a'⟩ := r
  cases ok with
  | false => exact .refused hd hl
  | true =>
    simp only at hl hd ⊢
    split
    · split
      · exact .refused hd hl
      · exact walked_writeLeaf hd hl
    · cases hhuge : h'.leaves (pageAround true page.start) with
      | some old =>
        refine ⟨hd, fun q => ?_, fun h => by cases h⟩
        by_cases hq : q = pageAround true page.start
        · subst hq
          exact .inr (.inr ⟨rfl, old, by rw [← hl]; exact hhuge, update_self _ _ _⟩)
        · refine .inl ?_
          show update h'.leaves (pageAround true page.start) _ q = _
          rw [update_of_ne hq, hl]
      | none =>
        obtain ⟨hl', hd'⟩ := walkTables_spec A page.start [1] h' a'
        exact walked_writeLeaf (hd.trans hd') (hl'.trans hl)

/-- The walk has the laws. -/
theorem pcPlatform_laws (A : FrameOps α) : PlatformLaws (pcPlatform A) where
  toAddressLaws := Capability.x86Addresses_laws
  mapTo_draws h page pte a := (walked_walkTo A h page pte a).draws
  mapTo_mapped h page pte a := (walked_walkTo A h page pte a).mapped
  mapTo_ok hok := (walked_walkTo A _ _ _ _).ok hok
  unmap_eq _ _ := rfl
  translate_eq _ _ := rfl

end

/-! ## Addresses -/

/-- The end of the user half. -/
def userTop : Nat := 0x0000800000000000

/-- Block `i` of a range of blocks of a size. -/
def blockAt (size base i : Nat) : Nat := (base + i * size) % 2 ^ 64

/-- Page `i` of a range. -/
def pageAt (base i : Nat) : Nat := blockAt 4096 base i

end Folkering.Memory
