/-
  The ELF loader: WHAT IS IN THE PAGES (`spawn` of kernel/src/task/spawn.rs).

  A segment starts and ends anywhere; it is loaded page by page.  Each page is a fresh frame, zeroed and mapped, into
  which the part of the file that falls on the page is copied through the direct map:
      `copyPage_spec`   — the four cases of first, middle, last and zero page in one: the byte of the page at `v` is the
                          file's byte for `v`, or zero;
      `Grows`           — what a page leaves alone: entries that are there, and frames that are held;
      `loadPages_image`, `loadSegments_image` — so what was loaded stays, through the later pages and the stack.
  A frame from the allocator is held by nobody (`FrameLaws`), and mapping a page that is in use fails.

  The memory here is that of the pages; the tables stand in frames of their own, and the kernel state has their entries.
-/
import Folkering.Memory.Frames
import Folkering.Memory.Programs
import Folkering.Task.Elf

namespace Folkering.Loader

open Memory Elf Word64 Function
open Physical (Block)
open Capability (PageTableFlags)

/-! ## The file -/

/-- What the loader reads of a program header. -/
structure ProgramHeader where
  pType : Nat
  pFlags : Nat
  pOffset : Nat
  pVaddr : Nat
  pFilesz : Nat
  pMemsz : Nat

/-- The header at a place in the file. -/
def headerAt (mem : Nat → UInt8) (place : Nat) : ProgramHeader :=
  let field := leAt fun i => mem (wadd place i)
  { pType := field 0 4, pFlags := field 4 4, pOffset := field 8 8, pVaddr := field 16 8, pFilesz := field 32 8
    pMemsz := field 40 8 }

/-- The places that the iterator yields, in at most `n` steps. -/
def places (it : ProgramHeaderIter) : Nat → List Nat
  | 0 => []
  | n + 1 =>
    match it.next with
    | none => []
    | some (place, rest) => place :: places rest n

/-- `PT_LOAD`. -/
def ptLoad : Nat := 1

/-- `loadable_segments`. -/
def loadableSegments (elf : ElfBinary) : List ProgramHeader :=
  ((places elf.programHeaders elf.ePhnum).map (headerAt elf.binary.mem)).filter (·.pType == ptLoad)

/-! ## The loader -/

/-- Physical memory, through the direct map. -/
abbrev Ram := Nat → UInt8

/-- The kernel, and the memory. -/
structure World (α : Type) where
  kernel : Kernel α
  ram : Ram

/-- Why a program is not loaded. -/
inductive SpawnError where
  | invalidElf (e : ElfError)
  | outOfMemory
deriving DecidableEq

section

variable {α : Type} (A : Platform α)

/-- A step of the loader. -/
abbrev Load (α β : Type) := Step (World α) Abort β

/-- A step of the kernel; the memory stays. -/
def onKernel {β : Type} (m : Mem α β) : Load α β := fun w =>
  match m w.kernel with
  | .ok (b, k) => .ok (b, { w with kernel := k })
  | .error e => .error e

/-- `write_bytes(hhdm_addr, 0, 4096)`. -/
def zeroPage (phys : Nat) (ram : Ram) : Ram := fun x => if phys ≤ x ∧ x < phys + 4096 then 0 else ram x

/-- `copy_nonoverlapping` from the file. -/
def copyBytes (binary : Binary) (src dst len : Nat) (ram : Ram) : Ram := fun x =>
  if dst ≤ x ∧ x < dst + len then binary.mem (src + (x - dst)) else ram x

/-- The part of a segment on the page at `pageVaddr`, copied to its frame. -/
def copyPage (binary : Binary) (seg : ProgramHeader) (pageVaddr phys : Nat) (ram : Ram) : Ram :=
  let pageStartInSegment := if pageVaddr < seg.pVaddr then 0 else pageVaddr - seg.pVaddr
  let copyOffsetInPage := if pageVaddr < seg.pVaddr then seg.pVaddr - pageVaddr else 0
  let remainingInFile := if pageStartInSegment < seg.pFilesz then seg.pFilesz - pageStartInSegment else 0
  let copyLen := min remainingInFile (4096 - copyOffsetInPage)
  if 0 < copyLen ∧ wadd seg.pOffset pageStartInSegment < binary.len then
    let srcOffset := wadd seg.pOffset pageStartInSegment
    let srcEnd := min (wadd srcOffset copyLen) binary.len
    copyBytes binary srcOffset (phys + copyOffsetInPage) (srcEnd - srcOffset) ram
  else ram

/-- A fresh frame, zeroed and mapped. -/
def newPage (t vaddr : Nat) (flags : PageTableFlags) : Load α (Option Nat) := do
  match ← onKernel (allocPage A) with
  | none => pure none
  | some phys => do
    modify fun w => { w with ram := zeroPage phys w.ram }
    if ← onKernel (mapPageInTable A t vaddr phys flags) then pure (some phys) else pure none

/-- The pages of a segment. -/
def loadPages (t : Nat) (binary : Binary) (seg : ProgramHeader) (startPage : Nat) (flags : PageTableFlags) :
    Nat → Nat → Load α (Except SpawnError Unit)
  | 0, _ => pure (.ok ())
  | n + 1, i => do
    match ← newPage A t (pageAt startPage i) flags with
    | none => pure (.error .outOfMemory)
    | some phys => do
      modify fun w => { w with ram := copyPage binary seg (pageAt startPage i) phys w.ram }
      loadPages t binary seg startPage flags n (i + 1)

/-- Write permission of a segment. -/
def pfW : Nat := 2

/-- A segment, if it has a size and lies in the user half. -/
def loadSegment (t : Nat) (binary : Binary) (seg : ProgramHeader) : Load α (Except SpawnError Unit) :=
  if seg.pMemsz = 0 then pure (.ok ())
  else
    let segEnd := min (seg.pVaddr + seg.pMemsz) (2 ^ 64 - 1)
    if userTop ≤ seg.pVaddr ∨ userTop < segEnd then pure (.error (.invalidElf .kernelVaddr))
    else
      let startPage := seg.pVaddr / 4096 * 4096
      let endPage := (seg.pVaddr + seg.pMemsz + 0xFFF) / 4096 * 4096
      loadPages A t binary seg startPage (if seg.pFlags &&& pfW ≠ 0 then userData else userCode)
        ((endPage - startPage) / 4096) 0

/-- The segments. -/
def loadSegments (t : Nat) (binary : Binary) : List ProgramHeader → Load α (Except SpawnError Unit)
  | [] => pure (.ok ())
  | seg :: rest => do
    match ← loadSegment A t binary seg with
    | .ok () => loadSegments t binary rest
    | .error e => pure (.error e)

/-- The pages of the stack. -/
def loadStack (t stackBase : Nat) : Nat → Nat → Load α Bool
  | 0, _ => pure true
  | n + 1, i => do
    match ← newPage A t (pageAt stackBase i) userData with
    | none => pure false
    | some _ => loadStack t stackBase n (i + 1)

/-- `spawn`, when the file has been parsed. -/
def spawnElf (elf : ElfBinary) : Load α (Except SpawnError Nat) := do
  let w ← get
  let t := w.kernel.nextTaskId
  modify fun w => { w with kernel := { w.kernel with nextTaskId := (t + 1) % 2 ^ 32 } }
  match ← onKernel (allocPage A) with
  | none => pure (.error .outOfMemory)
  | some pml4 => do
    modify fun w => { w with kernel := w.kernel.setHalf (some t) .empty }
    match ← loadSegments A t elf.binary (loadableSegments elf) with
    | .error e => pure (.error e)
    | .ok () => do
      if ← loadStack A t (stackTop - stackPages * 4096) stackPages 0 then do
        modify fun w =>
          { w with kernel := { w.kernel with tasks := update w.kernel.tasks t (some ⟨pml4, false⟩) } }
        pure (.ok t)
      else pure (.error .outOfMemory)

/-- `spawn`. -/
def spawn (binary : Binary) : Load α (Except SpawnError Nat) :=
  match parse binary with
  | .error e => pure (.error (.invalidElf e))
  | .ok elf => spawnElf A elf

end

/-! ## One page -/

/-- The byte of a segment's image at an address: from the file, or zero. -/
def imageByte (binary : Binary) (seg : ProgramHeader) (v : Nat) : UInt8 :=
  if seg.pVaddr ≤ v ∧ v < seg.pVaddr + seg.pFilesz then binary.mem (seg.pOffset + (v - seg.pVaddr)) else 0

/-- The copy of a page, with its place in the segment and in the page. -/
theorem copyPage_eq (binary : Binary) (seg : ProgramHeader) (pageVaddr phys : Nat) (ram : Ram) :
    ∃ start off, pageVaddr + off = seg.pVaddr + start ∧ (off = 0 ∨ start = 0) ∧
      copyPage binary seg pageVaddr phys ram =
        if 0 < min (seg.pFilesz - start) (4096 - off) ∧ wadd seg.pOffset start < binary.len then
          copyBytes binary (wadd seg.pOffset start) (phys + off)
            (min (wadd (wadd seg.pOffset start) (min (seg.pFilesz - start) (4096 - off))) binary.len -
              wadd seg.pOffset start) ram
        else ram := by
  have hrest : ∀ start, (if start < seg.pFilesz then seg.pFilesz - start else 0) = seg.pFilesz - start := by
    intro start
    split
    · rfl
    · omega
  unfold copyPage
  simp only [hrest]
  by_cases hfirst : pageVaddr < seg.pVaddr
  · refine ⟨0, seg.pVaddr - pageVaddr, by omega, .inr rfl, ?_⟩
    simp only [if_pos hfirst]
  · refine ⟨pageVaddr - seg.pVaddr, 0, by omega, .inl rfl, ?_⟩
    simp only [if_neg hfirst]

/-- Copying does not leave the page. -/
theorem copyPage_outside (binary : Binary) (seg : ProgramHeader) (pageVaddr : Nat) {phys x : Nat} (ram : Ram)
    (h : x < phys ∨ phys + 4096 ≤ x) : copyPage binary seg pageVaddr phys ram x = ram x := by
  obtain ⟨start, off, -, -, heq⟩ := copyPage_eq binary seg pageVaddr phys ram
  have hlen := binary.len_lt
  rw [heq]
  split
  · rename_i hcopy
    rw [wadd_eq (a := wadd seg.pOffset start) (by omega)]
    refine if_neg ?_
    omega
  · rfl

/-- The page after zeroing and copying: first, middle, last and zero pages alike. -/
theorem copyPage_spec {binary : Binary} {seg : ProgramHeader} (hfile : seg.pOffset + seg.pFilesz ≤ binary.len)
    {pageVaddr phys y : Nat} {ram : Ram} (hzero : ram (phys + y) = 0) (hy : y < 4096) :
    copyPage binary seg pageVaddr phys ram (phys + y) = imageByte binary seg (pageVaddr + y) := by
  obtain ⟨start, off, hplace, hone, heq⟩ := copyPage_eq binary seg pageVaddr phys ram
  have hlen := binary.len_lt
  rw [heq, imageByte]
  by_cases hin : off ≤ y ∧ y - off < seg.pFilesz - start
  · have hsrc : wadd seg.pOffset start = seg.pOffset + start := wadd_eq (by omega)
    rw [hsrc, wadd_eq (by omega), if_pos ⟨by omega, by omega⟩, copyBytes, if_pos ⟨by omega, by omega⟩,
      if_pos ⟨by omega, by omega⟩]
    congr 1
    omega
  · have hout : ¬ (seg.pVaddr ≤ pageVaddr + y ∧ pageVaddr + y < seg.pVaddr + seg.pFilesz) := by omega
    rw [if_neg hout]
    split
    · rename_i hcopy
      have hsrc : wadd seg.pOffset start = seg.pOffset + start := wadd_eq (by omega)
      rw [hsrc, wadd_eq (by omega), copyBytes, if_neg (by omega)]
      exact hzero
    · exact hzero

/-! ## What stays -/

section

variable {α : Type} {A : Platform α} {L : FrameLaws A.toFrameOps} {t : Nat} {held held₁ held₂ : List Block}
  {w w₁ w₂ : World α}

/-- The frame of a page of a task. -/
def World.frameAt (w : World α) (t : Nat) (page : Page) : Option Nat := (w.kernel.halves (some t)).frameAt page

/-- Frames are taken, pages are added; what was there stays. -/
structure Grows (L : FrameLaws A.toFrameOps) (t : Nat) (held : List Block) (w : World α) (held' : List Block) (w' : World α) :
    Prop where
  good : L.Good w'.kernel.frames held'
  keeps : held ⊆ held'
  frames : ∀ page f, w.frameAt t page = some f → w'.frameAt t page = some f
  upper : w'.kernel.halves none = w.kernel.halves none
  ram : ∀ f, ⟨f, 0⟩ ∈ held → ∀ y < 4096, w'.ram (f + y) = w.ram (f + y)

theorem Grows.trans (h₁ : Grows L t held w held₁ w₁) (h₂ : Grows L t held₁ w₁ held₂ w₂) : Grows L t held w held₂ w₂ where
  good := h₂.good
  keeps := fun _ hf => h₂.keeps (h₁.keeps hf)
  frames := fun page f h => h₂.frames page f (h₁.frames page f h)
  upper := h₂.upper.trans h₁.upper
  ram := fun f hf y hy => (h₂.ram f (h₁.keeps hf) y hy).trans (h₁.ram f hf y hy)

theorem Grows.refl (hgood : L.Good w.kernel.frames held) : Grows L t held w held w :=
  ⟨hgood, fun _ hf => hf, fun _ _ h => h, rfl, fun _ _ _ _ => rfl⟩

/-- The task has the byte at the address, in a frame that is held. -/
def Placed (t : Nat) (held : List Block) (w : World α) (v : Nat) (b : UInt8) : Prop :=
  ∃ f, w.frameAt t (pageAround false v) = some f ∧ ⟨f, 0⟩ ∈ held ∧ w.ram (f + v % 4096) = b

/-- A placed byte stays. -/
theorem Placed.grows {v : Nat} {b : UInt8} (h : Placed t held w v b) (hg : Grows L t held w held₁ w₁) :
    Placed t held₁ w₁ v b := by
  obtain ⟨f, hf, hheld, hbyte⟩ := h
  exact ⟨f, hg.frames _ _ hf, hg.keeps hheld, (hg.ram _ hheld _ (Nat.mod_lt _ (by decide))).trans hbyte⟩

/-- A step of the kernel in the loader. -/
theorem onKernel_ok {β : Type} {m : Mem α β} {b : β} (h : onKernel m w = .ok (b, w₁)) :
    m w.kernel = .ok (b, w₁.kernel) ∧ w₁.ram = w.ram := by
  unfold onKernel at h
  split at h
  · cases h
    exact ⟨by assumption, rfl⟩
  · cases h

/-- A page in the user half is mapped to a frame. -/
theorem map_grows (W : PlatformLaws A) {vaddr phys : Nat} {flags : PageTableFlags} (hgood : L.Good w.kernel.frames held)
    (hv : vaddr < userTop) (h4 : vaddr % 4096 = 0) (hphys : phys % 4096 = 0)
    (hrun : onKernel (mapPageInTable A t vaddr phys flags) w = .ok (true, w₁)) :
    ∃ held', Grows L t held w held' w₁ ∧ w₁.frameAt t ⟨false, vaddr⟩ = some phys ∧ w₁.ram = w.ram := by
  obtain ⟨hmap, hram⟩ := onKernel_ok hrun
  obtain ⟨-, -, hmap⟩ := mapSized_ok W hmap
  rw [Kernel.halfOf, if_pos hv, pageFor_aligned W false h4, W.aligned (show phys % blockSize false = 0 from hphys)] at hmap
  obtain ⟨hok, hk⟩ := Prod.mk.inj (Except.ok.inj hmap)
  obtain ⟨-, hnew⟩ := W.mapTo_ok hok
  have hmapped := W.mapTo_mapped (w.kernel.halves (some t)) ⟨false, vaddr⟩ ⟨phys, flags⟩ w.kernel.frames
  obtain ⟨held', hgood', hsub⟩ := L.draws hgood (W.mapTo_draws (w.kernel.halves (some t)) ⟨false, vaddr⟩ ⟨phys, flags⟩ _)
  have hhalf : w₁.kernel.halves (some t) =
      (A.mapTo (w.kernel.halves (some t)) ⟨false, vaddr⟩ ⟨phys, flags⟩ w.kernel.frames).2.1 := by
    rw [← hk, Kernel.setHalf_self]
  refine ⟨held', ⟨?_, hsub, fun page f hf => ?_, ?_, fun f _ y _ => by rw [hram]⟩, ?_, hram⟩
  · rw [← hk]
    exact hgood'
  · rw [World.frameAt, hhalf]
    rcases hmapped.frameAt page with heq | ⟨rfl, hnone, -⟩
    · exact heq.trans hf
    · rw [World.frameAt, Half.frameAt, hnone] at hf
      cases hf
  · rw [← hk, Kernel.setHalf_ne _ (by simp)]
    rfl
  · rw [World.frameAt, hhalf, Half.frameAt, hnew]
    rfl

/-- A fresh page: nothing else changes, and it is all zero. -/
theorem newPage_grows (W : PlatformLaws A) {vaddr phys : Nat} {flags : PageTableFlags}
    (hgood : L.Good w.kernel.frames held) (hv : vaddr < userTop) (h4 : vaddr % 4096 = 0)
    (hrun : newPage A t vaddr flags w = .ok (some phys, w₁)) :
    ∃ held', Grows L t held w held' w₁ ∧ ⟨phys, 0⟩ ∉ held ∧ ⟨phys, 0⟩ ∈ held' ∧ phys % 4096 = 0 ∧
      w₁.frameAt t ⟨false, vaddr⟩ = some phys ∧ ∀ y < 4096, w₁.ram (phys + y) = 0 := by
  obtain ⟨f, w₂, halloc, hrun⟩ := Step.bind_ok.mp hrun
  obtain ⟨hk, hram⟩ := onKernel_ok halloc
  obtain ⟨hf, hk₂⟩ := Prod.mk.inj (Except.ok.inj hk)
  cases f with
  | none => cases hrun
  | some f =>
    obtain ⟨⟨⟩, w₃, hzero, hrun⟩ := Step.bind_ok.mp hrun
    cases hzero
    obtain ⟨ok, w₄, hmap, hrun⟩ := Step.bind_ok.mp hrun
    cases ok with
    | false => cases hrun
    | true =>
      cases hrun
      have halloc' : A.alloc w.kernel.frames 0 = (some phys, w₂.kernel.frames) := by
        rw [← hk₂]
        exact Prod.ext hf rfl
      have hgood₂ := L.alloc_some (Nat.zero_le _) hgood halloc'
      have hfresh := (List.nodup_cons.mp (L.nodup hgood₂)).1
      have haligned := (L.frame_lt hgood₂ List.mem_cons_self).2
      obtain ⟨held', hgrows, hleaf, hram'⟩ := @map_grows α A L t (⟨phys, 0⟩ :: held)
        { w₂ with ram := zeroPage phys w₂.ram } w₁ W vaddr phys flags hgood₂ hv h4 haligned hmap
      have hzero : ∀ y < 4096, w₁.ram (phys + y) = 0 := by
        intro y hy
        rw [hram']
        exact if_pos ⟨Nat.le_add_right _ _, by omega⟩
      refine ⟨held', ⟨hgrows.good, fun g hg => hgrows.keeps (List.mem_cons_of_mem _ hg), fun page f hf => ?_, ?_, ?_⟩,
        hfresh, hgrows.keeps List.mem_cons_self, haligned, hleaf, hzero⟩
      · refine hgrows.frames page f ?_
        rw [World.frameAt, ← hk₂]
        exact hf
      · rw [hgrows.upper]
        show w₂.kernel.halves none = _
        rw [← hk₂]
        rfl
      · intro g hg y hy
        have hgm := L.frame_lt hgood hg
        have hne : g ≠ phys := by
          rintro rfl
          exact hfresh hg
        rw [hram']
        show zeroPage phys w₂.ram (g + y) = w.ram (g + y)
        rw [zeroPage, if_neg (by omega), hram]

/-- One page of a segment. -/
theorem copied_page (W : PlatformLaws A) {binary : Binary} {seg : ProgramHeader} {vaddr phys : Nat} {flags : PageTableFlags}
    (hfile : seg.pOffset + seg.pFilesz ≤ binary.len) (hgood : L.Good w.kernel.frames held) (hv : vaddr < userTop)
    (h4 : vaddr % 4096 = 0) (hrun : newPage A t vaddr flags w = .ok (some phys, w₁)) :
    ∃ held', Grows L t held w held' { w₁ with ram := copyPage binary seg vaddr phys w₁.ram } ∧
      ∀ v, v / 4096 * 4096 = vaddr → Placed t held' { w₁ with ram := copyPage binary seg vaddr phys w₁.ram } v
        (imageByte binary seg v) := by
  obtain ⟨held', hgrows, hfresh, hheld, halign, hleaf, hzero⟩ := newPage_grows W hgood hv h4 hrun
  refine ⟨held', ⟨hgrows.good, hgrows.keeps, hgrows.frames, hgrows.upper, fun g hg y hy => ?_⟩, fun v hpage => ?_⟩
  · have hgm := (L.frame_lt hgood hg).2
    have hne : g ≠ phys := by
      rintro rfl
      exact hfresh hg
    refine (copyPage_outside binary seg vaddr w₁.ram ?_).trans (hgrows.ram g hg y hy)
    omega
  · have hlt : v % 4096 < 4096 := Nat.mod_lt _ (by decide)
    refine ⟨phys, ?_, hheld, ?_⟩
    · rw [← hpage] at hleaf
      exact hleaf
    · have hbyte := @copyPage_spec binary seg hfile vaddr phys (v % 4096) w₁.ram (hzero _ hlt) hlt
      rw [show vaddr + v % 4096 = v by omega] at hbyte
      exact hbyte

/-- The pages of a segment, from page `i` on. -/
theorem loadPages_image (W : PlatformLaws A) {binary : Binary} {seg : ProgramHeader} {startPage : Nat} {flags : PageTableFlags}
    (hfile : seg.pOffset + seg.pFilesz ≤ binary.len) (h4 : startPage % 4096 = 0) {n i : Nat}
    (hgood : L.Good w.kernel.frames held) (hend : startPage + 4096 * (i + n) ≤ 2 ^ 47)
    (hrun : loadPages A t binary seg startPage flags n i w = .ok (.ok (), w₁)) :
    ∃ held', Grows L t held w held' w₁ ∧ ∀ v, startPage + 4096 * i ≤ v → v < startPage + 4096 * (i + n) →
      Placed t held' w₁ v (imageByte binary seg v) := by
  induction n generalizing i held w with
  | zero =>
    cases hrun
    exact ⟨held, .refl hgood, fun v hlo hhi => by omega⟩
  | succ n ih =>
    have hpage : pageAt startPage i = startPage + 4096 * i := by
      have hlt : startPage + 4096 * i < 2 ^ 64 := by omega
      rw [Nat.mul_comm] at hlt ⊢
      exact pageAt_of_lt hlt
    obtain ⟨r, w₂, hnew, hrun⟩ := Step.bind_ok.mp hrun
    cases r with
    | none => cases hrun
    | some phys =>
      obtain ⟨⟨⟩, w₃, hcopy, hrun⟩ := Step.bind_ok.mp hrun
      cases hcopy
      have huser : pageAt startPage i < userTop := by
        rw [hpage, userTop_eq]
        omega
      obtain ⟨held₂, hgrows, hplaced⟩ := copied_page W hfile hgood huser (by omega) hnew
      obtain ⟨held₃, hgrows', hplaced'⟩ := ih hgrows.good (by omega) hrun
      refine ⟨held₃, hgrows.trans hgrows', fun v hlo hhi => ?_⟩
      by_cases hv : v < startPage + 4096 * (i + 1)
      · exact (hplaced v (by omega)).grows hgrows'
      · rw [show i + (n + 1) = i + 1 + n by omega] at hhi
        exact hplaced' v (Nat.le_of_not_lt hv) hhi

/-- A segment: its pages lie in the user half and hold its image. -/
theorem loadSegment_image (W : PlatformLaws A) {binary : Binary} {seg : ProgramHeader} (hfile : seg.pOffset + seg.pFilesz ≤ binary.len)
    (hgood : L.Good w.kernel.frames held) (hrun : loadSegment A t binary seg w = .ok (.ok (), w₁)) :
    ∃ held', Grows L t held w held' w₁ ∧ ∀ v, seg.pVaddr / 4096 ≤ v / 4096 →
      v / 4096 * 4096 < seg.pVaddr + seg.pMemsz → 0 < seg.pMemsz →
      v / 4096 * 4096 + 4096 ≤ userTop ∧ Placed t held' w₁ v (imageByte binary seg v) := by
  have htop := userTop_eq
  unfold loadSegment at hrun
  split at hrun
  · cases hrun
    exact ⟨held, .refl hgood, fun v _ _ hpos => by omega⟩
  simp only at hrun
  split at hrun
  · cases hrun
  rename_i hmem hrange
  obtain ⟨held', hgrows, hplaced⟩ := @loadPages_image α A L t held w w₁ W binary seg _ _ hfile (Nat.mul_mod_left _ _) _ 0
    hgood (by omega) hrun
  refine ⟨held', hgrows, fun v hlo hhi _ => ⟨by omega, hplaced v (by omega) ?_⟩⟩
  omega

/-- The segments, one after the other. -/
theorem loadSegments_image (W : PlatformLaws A) {binary : Binary} {segs : List ProgramHeader}
    (hfile : ∀ seg ∈ segs, seg.pOffset + seg.pFilesz ≤ binary.len) (hgood : L.Good w.kernel.frames held)
    (hrun : loadSegments A t binary segs w = .ok (.ok (), w₁)) :
    ∃ held', Grows L t held w held' w₁ ∧ ∀ seg ∈ segs, ∀ v, seg.pVaddr / 4096 ≤ v / 4096 →
      v / 4096 * 4096 < seg.pVaddr + seg.pMemsz → 0 < seg.pMemsz →
      v / 4096 * 4096 + 4096 ≤ userTop ∧ Placed t held' w₁ v (imageByte binary seg v) := by
  induction segs generalizing held w with
  | nil =>
    cases hrun
    exact ⟨held, .refl hgood, by simp⟩
  | cons seg segs ih =>
    obtain ⟨r, w₂, hseg, hrun⟩ := Step.bind_ok.mp hrun
    cases r with
    | error e => cases hrun
    | ok _ =>
      obtain ⟨held₂, hgrows, hplaced⟩ := loadSegment_image W (hfile seg List.mem_cons_self) hgood hseg
      obtain ⟨held₃, hgrows', hplaced'⟩ := ih (fun s hs => hfile s (List.mem_cons_of_mem _ hs)) hgrows.good hrun
      refine ⟨held₃, hgrows.trans hgrows', fun s hs v hlo hhi hpos => ?_⟩
      rcases List.mem_cons.mp hs with rfl | hs
      · obtain ⟨huser, hbyte⟩ := hplaced v hlo hhi hpos
        exact ⟨huser, hbyte.grows hgrows'⟩
      · exact hplaced' s hs v hlo hhi hpos

/-- The stack takes frames of its own. -/
theorem loadStack_grows (W : PlatformLaws A) {stackBase n i : Nat} (hgood : L.Good w.kernel.frames held)
    (h4 : stackBase % 4096 = 0) (hend : stackBase + 4096 * (i + n) ≤ 2 ^ 47) (hrun : loadStack A t stackBase n i w = .ok (true, w₁)) :
    ∃ held', Grows L t held w held' w₁ := by
  induction n generalizing i held w with
  | zero =>
    cases hrun
    exact ⟨held, .refl hgood⟩
  | succ n ih =>
    obtain ⟨r, w₂, hnew, hrun⟩ := Step.bind_ok.mp hrun
    cases r with
    | none => cases hrun
    | some phys =>
      have huser : pageAt stackBase i < userTop := by
        rw [pageAt_of_lt (by omega), userTop_eq]
        omega
      obtain ⟨held₂, hgrows, -⟩ := newPage_grows W hgood huser (pageAt_aligned h4 i) hnew
      obtain ⟨held₃, hgrows'⟩ := ih hgrows.good (by omega) hrun
      exact ⟨held₃, hgrows.trans hgrows'⟩

end

/-! ## The new address space -/

/-- What the task reads at a virtual address, through a page of either size. -/
def byteAt {α : Type} (w : World α) (t v : Nat) : Option UInt8 :=
  let half := w.kernel.halves (Kernel.halfOf t v)
  ((half.frameAt (pageAround false v)).map fun f => w.ram (f + v % 4096)).or
    ((half.frameAt (pageAround true v)).map fun f => w.ram (f + v % hugePageSize))

/-- The address space has the exact image of the segments: their bytes, then zeros, on pages of the user half; the
    kernel half is as before. -/
structure ExactImage {α : Type} (binary : Binary) (segs : List ProgramHeader) (w : World α) (t : Nat) (w' : World α) :
    Prop where
  bytes : ∀ seg ∈ segs, ∀ j < seg.pMemsz, byteAt w' t (seg.pVaddr + j) =
    some (if j < seg.pFilesz then binary.mem (seg.pOffset + j) else 0)
  pages : ∀ seg ∈ segs, ∀ j < seg.pMemsz, (seg.pVaddr + j) / 4096 * 4096 + 4096 ≤ userTop
  upper : w'.kernel.halves none = w.kernel.halves none

/-- The image of a file that has been parsed. -/
theorem spawnElf_image {α : Type} {A : Platform α} (W : PlatformLaws A) {L : FrameLaws A.toFrameOps} {held : List Block}
    {w w' : World α} {elf : ElfBinary} {t : Nat} (hgood : L.Good w.kernel.frames held)
    (hfile : ∀ seg ∈ loadableSegments elf, seg.pOffset + seg.pFilesz ≤ elf.binary.len)
    (hrun : spawnElf A elf w = .ok (.ok t, w')) : ExactImage elf.binary (loadableSegments elf) w t w' := by
  obtain ⟨w₀, w₁, hget, hrun⟩ := Step.bind_ok.mp hrun
  cases hget
  obtain ⟨⟨⟩, w₁, hid, hrun⟩ := Step.bind_ok.mp hrun
  cases hid
  obtain ⟨f, w₂, halloc, hrun⟩ := Step.bind_ok.mp hrun
  obtain ⟨hk, -⟩ := onKernel_ok halloc
  obtain ⟨hf, hk₂⟩ := Prod.mk.inj (Except.ok.inj hk)
  cases f with
  | none => cases hrun
  | some pml4 =>
    have hgood₂ : L.Good w₂.kernel.frames (⟨pml4, 0⟩ :: held) := by
      refine L.alloc_some (Nat.zero_le _) hgood (Prod.ext hf ?_)
      rw [← hk₂]
      rfl
    obtain ⟨⟨⟩, w₃, hhalf, hrun⟩ := Step.bind_ok.mp hrun
    cases hhalf
    obtain ⟨r, w₄, hsegs, hrun⟩ := Step.bind_ok.mp hrun
    cases r with
    | error e => cases hrun
    | ok u =>
      obtain ⟨⟩ := u
      obtain ⟨ok, w₅, hstack, hrun⟩ := Step.bind_ok.mp hrun
      cases ok with
      | false => cases hrun
      | true =>
        obtain ⟨⟨⟩, w₆, htask, hrun⟩ := Step.bind_ok.mp hrun
        cases htask
        cases hrun
        obtain ⟨held₂, hgrows, hplaced⟩ := @loadSegments_image α A L _ (⟨pml4, 0⟩ :: held)
          { w₂ with kernel := w₂.kernel.setHalf (some w.kernel.nextTaskId) .empty } w₄ W _ _ hfile hgood₂ hsegs
        obtain ⟨held₃, hgrows'⟩ := loadStack_grows W hgrows.good (by decide) (by decide) hstack
        have hone : ∀ seg ∈ loadableSegments elf, ∀ j < seg.pMemsz,
            (seg.pVaddr + j) / 4096 * 4096 + 4096 ≤ userTop ∧
            Placed w.kernel.nextTaskId held₃ w₅ (seg.pVaddr + j) (imageByte elf.binary seg (seg.pVaddr + j)) := by
          intro seg hseg j hj
          obtain ⟨huser, hbyte⟩ := hplaced seg hseg (seg.pVaddr + j) (by omega) (by omega) (by omega)
          exact ⟨huser, hbyte.grows hgrows'⟩
        refine ⟨fun seg hseg j hj => ?_, fun seg hseg j hj => (hone seg hseg j hj).1, ?_⟩
        · obtain ⟨huser, f, hleaf, -, hbyte⟩ := hone seg hseg j hj
          have hlt : seg.pVaddr + j < userTop := by omega
          have hbyte' : byteAt w₅ w.kernel.nextTaskId (seg.pVaddr + j) =
              some (imageByte elf.binary seg (seg.pVaddr + j)) := by
            rw [byteAt, Kernel.halfOf, if_pos hlt]
            simp only [show (w₅.kernel.halves _).frameAt _ = some f from hleaf, Option.map_some, hbyte, Option.some_or]
          refine hbyte'.trans ?_
          rw [imageByte, Nat.add_sub_cancel_left]
          by_cases hfilesz : j < seg.pFilesz
          · rw [if_pos ⟨by omega, by omega⟩, if_pos hfilesz]
          · rw [if_neg (by omega), if_neg hfilesz]
        · show w₅.kernel.halves none = _
          rw [hgrows'.upper, hgrows.upper]
          show (w₂.kernel.setHalf _ _).halves none = _
          rw [Kernel.setHalf_ne _ (by simp), ← hk₂]
          rfl

/-- A file with one segment: two bytes at the end of a page, with a third behind them on the next one. -/
def tinyFile : Binary where
  mem i := (elfMagic ++ [2, 1] ++ List.replicate 10 0 ++ [2, 0, 62, 0] ++ List.replicate 12 0 ++ [64, 0, 0, 0, 0, 0, 0, 0] ++
    List.replicate 14 0 ++ [56, 0, 1, 0] ++ List.replicate 6 0 ++ [1, 0, 0, 0, 6, 0, 0, 0] ++ [120, 0, 0, 0, 0, 0, 0, 0] ++
    [0xFE, 0x0F, 0x40, 0, 0, 0, 0, 0] ++ List.replicate 8 0 ++ [2, 0, 0, 0, 0, 0, 0, 0] ++ [3, 0, 0, 0, 0, 0, 0, 0] ++
    List.replicate 8 0 ++ [7, 9]).getD i 0
  len := 122
  len_lt := by decide

/-- It parses. -/
def tinyElf : ElfBinary := ⟨tinyFile, by decide⟩

/-- The small machine, with empty memory. -/
def smallWorld : World Physical.Pmm := ⟨smallMachine, fun _ => 0⟩

end Folkering.Loader
