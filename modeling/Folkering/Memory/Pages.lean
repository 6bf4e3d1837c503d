/-
  Running the page-table steps.

  What each step does to one page, for every state: the steps as equations, with the page entries after them.  Callers
  reason about entries only; tables and the allocator appear in these equations as "some" new ones.

  A page of a task is one entry, so different pages of one task are different entries (`leaves_clear`).  The loops count
  pages with wrap-around; `pageAt_injective` says that they do not come back.
-/
import Folkering.Memory.Kernel

namespace Folkering.Memory

open Function

open Capability (Canonical PageTableFlags)

/-- The region that was put in. -/
theorem setRegion_self {α : Type} (k : Kernel α) (id : Nat) (r : SharedMemory) : (k.setRegion id r).regions id = some r :=
  update_self _ _ _

/-- Other regions stay. -/
theorem setRegion_ne {α : Type} (k : Kernel α) {id id' : Nat} (he : id' ≠ id) (r : SharedMemory) :
    (k.setRegion id r).regions id' = k.regions id' := update_of_ne he _ _

/-! ## Addresses -/

theorem userTop_eq : userTop = 2 ^ 47 := by decide

/-- User addresses are canonical. -/
theorem canonical_of_user {addr : Nat} (h : addr < userTop) : Canonical addr := .inl (userTop_eq ▸ h)

/-- The page size divides the number of addresses, so wrapping around keeps the alignment. -/
theorem pageAt_aligned {base : Nat} (h : base % 4096 = 0) (i : Nat) : pageAt base i % 4096 = 0 := by
  unfold pageAt blockAt
  omega

theorem pageAt_of_lt {base i : Nat} (h : base + i * 4096 < 2 ^ 64) : pageAt base i = base + i * 4096 :=
  Nat.mod_eq_of_lt h

/-- A page of a range in the user half is in the user half. -/
theorem pageAt_user {base i : Nat} (h : base + i * 4096 < 2 ^ 47) : pageAt base i < userTop := by
  rw [pageAt_of_lt (by omega), userTop_eq]
  exact h

/-- Fewer than `2 ^ 52` pages do not come back to the first. -/
theorem pageAt_injective {base i j : Nat} (hi : i < 2 ^ 52) (hj : j < 2 ^ 52) (h : pageAt base i = pageAt base j) :
    i = j := by
  unfold pageAt blockAt at h
  omega

section

variable {α : Type} {A : Platform α} (W : PlatformLaws A)

/-- The address type's check, when it passes. -/
theorem checked_ok {r : Except Capability.Panic Nat} {k k' : Kernel α} {addr : Nat}
    (hrun : checked r k = .ok (addr, k')) : r = .ok addr ∧ k' = k := by
  unfold checked at hrun
  cases r with
  | error e => cases hrun
  | ok a =>
    cases hrun
    exact ⟨rfl, rfl⟩

include W

/-- The page at an aligned address starts there. -/
theorem pageFor_aligned (huge : Bool) {addr : Nat} (h : addr % blockSize huge = 0) : pageFor A huge addr = ⟨huge, addr⟩ := by
  rw [pageFor, W.aligned h]

/-- A canonical address passes. -/
theorem checked_virt {addr : Nat} (h : Canonical addr) (k : Kernel α) : checked (A.virtAddrNew addr) k = .ok (addr, k) := by
  unfold checked
  rw [W.virt_ok h]

/-- Only canonical addresses pass, unchanged. -/
theorem virt_passed {addr v : Nat} (h : A.virtAddrNew addr = .ok v) : Canonical addr ∧ v = addr := by
  by_cases hc : Canonical addr
  · rw [W.virt_ok hc] at h
    cases h
    exact ⟨hc, rfl⟩
  · obtain ⟨e, he⟩ := W.virt_panics hc
    rw [he] at h
    cases h

/-- Only physical addresses of 52 bits pass, unchanged. -/
theorem phys_passed {addr p : Nat} (h : A.physAddrNew addr = .ok p) : addr < 2 ^ 52 ∧ p = addr := by
  by_cases hc : addr < 2 ^ 52
  · rw [W.phys_ok hc] at h
    cases h
    exact ⟨hc, rfl⟩
  · obtain ⟨e, he⟩ := W.phys_panics hc
    rw [he] at h
    cases h

omit W

/-! ## Unmapping -/

namespace Kernel

/-- The entries after one is cleared. -/
theorem leaves_clear (k : Kernel α) (o o' : Option Nat) (page q : Page) :
    ((k.clear o page).halves o').leaves q = if o' = o ∧ q = page then none else (k.halves o').leaves q := by
  unfold clear
  by_cases ho : o' = o
  · subst ho
    rw [setHalf_self]
    by_cases hq : q = page
    · rw [if_pos ⟨rfl, hq⟩, hq]
      exact update_self _ _ _
    · rw [if_neg (fun h => hq h.2)]
      exact update_of_ne hq _ _
  · rw [setHalf_ne k ho, if_neg (fun h => ho h.1)]

/-- A cleared entry is one of the old ones. -/
theorem of_leaves_clear {k : Kernel α} {o o' : Option Nat} {page q : Page} {pte : Pte}
    (h : ((k.clear o page).halves o').leaves q = some pte) : (k.halves o').leaves q = some pte := by
  rw [leaves_clear] at h
  split at h
  · cases h
  · exact h

/-- Clearing adds no entry. -/
theorem leaves_clear_none {k : Kernel α} {o' : Option Nat} {q : Page} (o : Option Nat) (page : Page)
    (h : (k.halves o').leaves q = none) : ((k.clear o page).halves o').leaves q = none := by
  rw [leaves_clear, h, ite_self]

/-- The page that was cleared. -/
theorem entryAt_clear_self (k : Kernel α) (t addr : Nat) : (k.clear (halfOf t addr) ⟨false, addr⟩).entryAt t addr = none := by
  unfold entryAt
  rw [leaves_clear, if_pos ⟨rfl, rfl⟩]

/-- Another page. -/
theorem entryAt_clear_ne (k : Kernel α) (o : Option Nat) {t a b : Nat} (hne : b ≠ a) :
    (k.clear o ⟨false, a⟩).entryAt t b = k.entryAt t b := by
  unfold entryAt
  rw [leaves_clear, if_neg fun h => hne (Page.mk.inj h.2).2]

end Kernel

/-- Giving back is one change of the allocator. -/
theorem freePages_run {k : Kernel α} {order addr : Nat} {a : α} (h : A.free k.frames addr order = .ok a) :
    freePages A order addr k = .ok ((), k.setFrames a) := by
  unfold freePages
  rw [h]

theorem freePages_ok {order f : Nat} {k k' : Kernel α} {r : Unit} (hrun : freePages A order f k = .ok (r, k')) :
    ∃ a, A.free k.frames f order = .ok a ∧ k' = k.setFrames a := by
  unfold freePages at hrun
  cases hfree : A.free k.frames f order with
  | error e =>
    rw [hfree] at hrun
    cases hrun
  | ok a =>
    rw [hfree] at hrun
    cases hrun
    exact ⟨a, rfl, rfl⟩

include W

/-- `unmap` returns the frame and clears the entry. -/
theorem unmap_run (o : Option Nat) (page : Page) (k : Kernel α) :
    unmap A o page k = .ok ((k.halves o).frameAt page, k.clear o page) := by
  rw [unmap, W.unmap_eq]
  rfl

/-- `unmap_page_in_table` at a page of a task. -/
theorem unmapPageInTable_run {t addr : Nat} (hc : Canonical addr) (h4 : addr % 4096 = 0) (k : Kernel α) :
    unmapPageInTable A t addr k =
      .ok ((k.entryAt t addr).map Pte.frame, k.clear (Kernel.halfOf t addr) ⟨false, addr⟩) := by
  rw [unmapPageInTable, unmapSized, Step.bind_run (checked_virt W hc k), pageFor_aligned W false h4, unmap_run W]
  rfl

omit W

/-! ## Mapping -/

namespace Kernel

/-- New frames in the allocator, a new half: all that mapping a page changes. -/
def withHalf (k : Kernel α) (frames : α) (o : Option Nat) (h : Half) : Kernel α :=
  (k.setFrames frames).setHalf o h

@[simp] theorem withHalf_self (k : Kernel α) (a : α) (o : Option Nat) (h : Half) : (k.withHalf a o h).halves o = h :=
  setHalf_self _ _ _

/-- The other halves stay. -/
theorem withHalf_ne (k : Kernel α) (a : α) {o o' : Option Nat} (ho : o' ≠ o) (h : Half) :
    (k.withHalf a o h).halves o' = k.halves o' := setHalf_ne _ ho _

end Kernel

include W

/-- A page is mapped, or not: the addresses passed their checks, and the rest is `map_to`. -/
theorem mapSized_ok {huge ok : Bool} {t virt phys : Nat} {flags : PageTableFlags} {k k' : Kernel α}
    (hrun : mapSized A huge t virt phys flags k = .ok (ok, k')) : Canonical virt ∧ phys < 2 ^ 52 ∧
      mapTo A (Kernel.halfOf t virt) (pageFor A huge virt) ⟨A.containingAddress (blockSize huge) phys, flags⟩ k =
        .ok (ok, k') := by
  obtain ⟨v, k₁, h₁, hrest⟩ := Step.bind_ok.mp hrun
  obtain ⟨p, k₂, h₂, hmap⟩ := Step.bind_ok.mp hrest
  obtain ⟨hv, rfl⟩ := checked_ok h₁
  obtain ⟨hp, rfl⟩ := checked_ok h₂
  obtain ⟨hc, rfl⟩ := virt_passed W hv
  obtain ⟨hlt, rfl⟩ := phys_passed W hp
  exact ⟨hc, hlt, hmap⟩

omit W

/-! ## Addresses that `mmap` chooses -/

/-- Choosing an address touches neither pages nor frames. -/
theorem automaticAddr_run (n : Nat) (k : Kernel α) :
    ∃ r k₁, automaticAddr n k = .ok (r, k₁) ∧ k₁.halves = k.halves ∧ k₁.frames = k.frames := by
  rw [automaticAddr, Step.bind_run (Step.get_run k)]
  cases k.freelist.popFit n with
  | none => exact ⟨_, _, rfl, rfl, rfl⟩
  | some r => exact ⟨_, _, rfl, rfl, rfl⟩

end

end Folkering.Memory
