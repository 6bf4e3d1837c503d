/-
  What a relation between kernel states needs to be kept by the memory calls.

  Every call is built from a few steps: a block is taken or given back, a page entry is written or cleared, a field
  that is not a page table changes.  For a reflexive and transitive relation `R` the lemmas here carry `Step.Keeps R`
  from those steps through the loops and calls.  The hypotheses name the steps:
    * `hframes`   — new frames in the allocator;
    * `MapStep`   — `map_to` at a page: the entry is written where there was none, tables may be added;
    * `ClearStep` — a page entry is cleared.
  An invariant `P` is the relation "`P` before gives `P` after" (`Step.Maintains.of_keeps`).
-/
import Folkering.Memory.Pages

namespace Folkering.Memory

open Capability (Canonical PageTableFlags)
open Step (Keeps)

section

variable {α : Type} {A : Platform α} {R : Kernel α → Kernel α → Prop} {huge : Bool}

/-- `R` is kept when task `t` maps a page at `virt` with these flags; the tables take frames. -/
def MapStep (A : Platform α) (R : Kernel α → Kernel α → Prop) (huge : Bool) (t virt : Nat) (flags : PageTableFlags)
    (phys : Nat) : Prop :=
  Canonical virt → ∀ k a half, Draws A.toFrameOps k.frames a →
    Mapped (k.halves (Kernel.halfOf t virt)) (pageFor A huge virt) ⟨A.containingAddress (blockSize huge) phys, flags⟩ half →
    R k (k.withHalf a (Kernel.halfOf t virt) half)

/-- `R` is kept when the page of task `t` at `virt` is taken out. -/
def ClearStep (A : Platform α) (R : Kernel α → Kernel α → Prop) (huge : Bool) (t virt : Nat) : Prop :=
  ∀ k, R k (k.clear (Kernel.halfOf t virt) (pageFor A huge virt))

/-! ## Steps -/

section

variable (W : PlatformLaws A)

include W

/-- What one mapping has to keep. -/
theorem keeps_mapTo {o : Option Nat} {page : Page} {pte : Pte}
    (h : ∀ k a half, Draws A.toFrameOps k.frames a → Mapped (k.halves o) page pte half → R k (k.withHalf a o half)) :
    Keeps R (mapTo A o page pte) := by
  intro k r k' hrun
  cases hrun
  exact h k _ _ (W.mapTo_draws _ _ _ _) (W.mapTo_mapped _ _ _ _)

theorem keeps_mapSized {t virt phys : Nat} {flags : PageTableFlags} (h : MapStep A R huge t virt flags phys) :
    Keeps R (mapSized A huge t virt phys flags) := by
  intro k r k' hrun
  obtain ⟨hcanonical, -, hmap⟩ := mapSized_ok W hrun
  exact keeps_mapTo W (h hcanonical) k r k' hmap

theorem keeps_mapBlock [Std.Refl R] {t virt phys : Nat} {flags : PageTableFlags} (h : MapStep A R huge t virt flags phys) :
    Keeps R (mapBlock A huge t virt phys flags) := by
  cases huge with
  | false => exact keeps_mapSized W h
  | true =>
    have hhuge : Keeps R (mapHugePageInTable A t virt phys flags) := .ite (fun _ => .pure _) fun _ => keeps_mapSized W h
    exact hhuge

/-- And one unmapping. -/
theorem keeps_unmap {o : Option Nat} {page : Page} (h : ∀ k, R k (k.clear o page)) : Keeps R (unmap A o page) := by
  intro k r k' hrun
  rw [unmap_run W] at hrun
  cases hrun
  exact h k

theorem keeps_unmapSized {t virt : Nat} (h : ClearStep A R huge t virt) : Keeps R (unmapSized A huge t virt) := by
  intro k r k' hrun
  obtain ⟨v, k₁, h₁, hrest⟩ := Step.bind_ok.mp hrun
  obtain ⟨hv, rfl⟩ := checked_ok h₁
  obtain ⟨-, rfl⟩ := virt_passed W hv
  exact keeps_unmap W h _ r k' hrest

theorem keeps_unmapBlock [Std.Refl R] {t virt : Nat} (h : ClearStep A R huge t virt) :
    Keeps R (unmapBlock A huge t virt) := by
  cases huge with
  | false => exact keeps_unmapSized W h
  | true =>
    have hhuge : Keeps R (unmapHugePageInTable A t virt) := .ite (fun _ => .pure _) fun _ => keeps_unmapSized W h
    exact hhuge

end

section

variable (hframes : ∀ k a, R k (k.setFrames a))

include hframes

theorem keeps_allocPages (order : Nat) : Keeps R (allocPages A order) := by
  intro k r k' hrun
  cases hrun
  exact hframes k _

theorem keeps_freePages (order f : Nat) : Keeps R (freePages A order f) := by
  intro k r k' hrun
  obtain ⟨a, -, rfl⟩ := freePages_ok hrun
  exact hframes k a

/-! ## Loops -/

variable [Std.Refl R] [IsTrans (Kernel α) R]

theorem keeps_freeAll (order : Nat) (fs : List Nat) : Keeps R (freeAll A order fs) := by
  induction fs with
  | nil => exact .pure ()
  | cons f fs ih => exact .bind (keeps_freePages hframes order f) fun _ => ih

theorem keeps_allocRegion (order n : Nat) (pages : List Nat) : Keeps R (allocRegion A order n pages) := by
  induction n generalizing pages with
  | zero => exact .pure _
  | succ n ih =>
    refine .bind (keeps_allocPages hframes order) fun r => ?_
    cases r with
    | some page => exact ih _
    | none => exact .bind (keeps_freeAll hframes order pages) fun _ => .pure _

variable (W : PlatformLaws A)

include W

theorem keeps_mapFresh {t base : Nat} {flags : PageTableFlags} {n i : Nat}
    (hmap : ∀ j, i ≤ j → j < i + n → ∀ phys, MapStep A R false t (pageAt base j) flags phys) :
    Keeps R (mapFresh A t base flags n i) := by
  induction n generalizing i with
  | zero => exact .pure true
  | succ n ih =>
    refine .bind (keeps_allocPages hframes 0) fun r => ?_
    cases r with
    | none => exact .pure false
    | some phys =>
      refine .bind (keeps_mapSized W (hmap i (Nat.le_refl i) (by omega) phys)) fun ok => ?_
      exact .ite (fun _ => ih fun j hij hj => hmap j (by omega) (by omega)) fun _ => .pure false

theorem keeps_unmapAndFree {t base : Nat} {n i : Nat} (freed : Nat)
    (hclear : ∀ j, i ≤ j → j < i + n → ClearStep A R false t (pageAt base j)) :
    Keeps R (unmapAndFree A t base n i freed) := by
  induction n generalizing i freed with
  | zero => exact .pure freed
  | succ n ih =>
    have hrest : ∀ freed, Keeps R (unmapAndFree A t base n (i + 1) freed) := fun freed =>
      ih freed fun j hij hj => hclear j (by omega) (by omega)
    refine .bind (keeps_unmapSized W (hclear i (Nat.le_refl i) (by omega))) fun r => ?_
    cases r with
    | none => exact hrest freed
    | some phys => exact .bind (keeps_freePages hframes 0 phys) fun _ => hrest (freed + 1)

/-- Loading is a sequence of mappings. -/
theorem keeps_loadSegments {t : Nat} {segs : List Segment}
    (hmap : ∀ seg ∈ segs, ∀ j phys, MapStep A R false t (pageAt (seg.vaddr.toNat / 4096 * 4096) j)
      (if seg.writable then userData else userCode) phys) : Keeps R (loadSegments A t segs) := by
  induction segs with
  | nil => exact .pure _
  | cons seg rest ih =>
    refine .bind ?_ fun ok => .ite (fun _ => ih fun s hs => hmap s (List.mem_cons_of_mem _ hs)) fun _ => .pure _
    refine .ite (fun _ => .pure _) fun _ => .ite (fun _ => .pure _) fun _ => ?_
    exact keeps_mapFresh hframes W fun j _ _ => hmap seg List.mem_cons_self j

end

section

variable [Std.Refl R] [IsTrans (Kernel α) R] (W : PlatformLaws A)

include W

theorem keeps_mapBlocks {t virt : Nat} {flags : PageTableFlags} {pages : List Nat} {i : Nat}
    (hmap : ∀ phys ∈ pages, ∀ j, MapStep A R huge t (blockAt (blockSize huge) virt j) flags phys) :
    Keeps R (mapBlocks A huge t virt flags pages i) := by
  induction pages generalizing i with
  | nil => exact .pure _
  | cons phys rest ih =>
    refine .bind (keeps_mapBlock W (hmap phys List.mem_cons_self i)) fun ok => ?_
    exact .ite (fun _ => ih fun p hp => hmap p (List.mem_cons_of_mem _ hp)) fun _ => .pure _

theorem keeps_mapDevice {t phys virt : Nat} {flags : PageTableFlags} {n i : Nat}
    (hmap : ∀ j, MapStep A R false t (pageAt virt j) flags (pageAt phys j)) :
    Keeps R (mapDevice A t phys virt flags n i) := by
  induction n generalizing i with
  | zero => exact .pure _
  | succ n ih => exact .bind (keeps_mapSized W (hmap i)) fun ok => .ite (fun _ => ih) fun _ => .pure _

theorem keeps_unmapBlocks {t virt : Nat} (hclear : ∀ j, ClearStep A R huge t (blockAt (blockSize huge) virt j))
    (n i : Nat) : Keeps R (unmapBlocks A huge t virt n i) := by
  induction n generalizing i with
  | zero => exact .pure ()
  | succ n ih => exact .bind (keeps_unmapBlock W (hclear i)) fun _ => ih (i + 1)

theorem keeps_unmapMapped {t virt : Nat} (hclear : ∀ j, ClearStep A R huge t (blockAt (blockSize huge) virt j))
    (n i : Nat) : Keeps R (unmapMapped A huge t virt n i) := by
  induction n generalizing i with
  | zero => exact .pure true
  | succ n ih =>
    refine .bind (keeps_unmapBlock W (hclear i)) fun r => ?_
    cases r with
    | none => exact .pure false
    | some phys => exact ih (i + 1)

/-- Clearing is a sequence of unmappings. -/
theorem keeps_clearMappings (n : Nat) {ms : List (Nat × Nat)}
    (h : ∀ m ∈ ms, ∀ j, ClearStep A R huge m.1 (blockAt (blockSize huge) m.2 j)) :
    Keeps R (clearMappings A huge n ms) := by
  induction ms with
  | nil => exact .pure ()
  | cons m ms ih =>
    refine .bind .get fun k => .bind ?_ fun _ => ih fun m' hm' => h m' (List.mem_cons_of_mem _ hm')
    exact .when fun _ => keeps_unmapBlocks W (h m List.mem_cons_self) _ _

end

/-! ## Runs -/

variable {k k' : Kernel α}

/-- A run whose calls all meet a condition on the state they start in. -/
def RunWith (A : Platform α) (meets : Kernel α → Call → Prop) (k : Kernel α) : List Call → Kernel α → Prop
  | [], k' => k' = k
  | c :: cs, k' => ∃ value k₁, meets k c ∧ Steps A k c value k₁ ∧ RunWith A meets k₁ cs k'

/-- What every such call keeps holds after the run. -/
theorem RunWith.keeps {meets : Kernel α → Call → Prop} {P : Kernel α → Prop}
    (hstep : ∀ k c value k', meets k c → Steps A k c value k' → P k → P k') {cs : List Call}
    (hrun : RunWith A meets k cs k') (h : P k) : P k' := by
  induction cs generalizing k with
  | nil => exact hrun ▸ h
  | cons c cs ih =>
    obtain ⟨value, k₁, hmeets, hcall, hrest⟩ := hrun
    exact ih hrest (hstep k c value k₁ hmeets hcall h)

end

end Folkering.Memory
