/-
  Write-xor-execute.

  `mprotect` refuses a request for both rights; `mmap` does not look.  Every other call maps pages that are never
  executable, or (the loader) writable or executable.  So the pages stay exclusive as long as no `mmap` asks for both.

  The invariant is about page entries only, so it is proved at the one step that writes an entry (`Guarded.mapped`) and
  carried through the calls by the rules for `Keeps`.  That step can also add rights to a huge page in its way, so the
  invariant says of huge pages that they are not executable; the only ones that the calls make are those of regions.
-/
import Folkering.Memory.Frames
import Folkering.Memory.Programs

namespace Folkering.Memory

open Capability (PageTableFlags)
open Step (Keeps Preserves)

/-- Not both writable and executable. -/
def Exclusive (flags : PageTableFlags) : Prop := ¬ (flags.writable = true ∧ flags.noExecute = false)

/-- No user page is both. -/
def WriteXorExecute {α : Type} (k : Kernel α) : Prop :=
  ∀ o page pte, (k.halves o).leaves page = some pte → pte.flags.userAccessible = true → Exclusive pte.flags

/-- No page of 2 MiB is executable. -/
def HugeNoExecute {α : Type} (k : Kernel α) : Prop :=
  ∀ o page pte, (k.halves o).leaves page = some pte → page.huge = true → pte.flags.noExecute = true

/-- The call asks for both rights at once. -/
def Call.asksBoth : Call → Bool
  | .mmap _ _ _ flags => flags &&& 0x2 != 0 && flags &&& 0x4 != 0
  | _ => false

section

variable {α : Type} {A : Platform α}

/-- Flags that can be given to a page of either size. -/
def Safe (huge : Bool) (flags : PageTableFlags) : Prop := Exclusive flags ∧ (huge = true → flags.noExecute = true)

/-- Flags without execution are exclusive. -/
theorem exclusive_of_noExecute {flags : PageTableFlags} (h : flags.noExecute = true) : Exclusive flags := by
  rintro ⟨-, hx⟩
  rw [h] at hx
  cases hx

/-- The two bits of a flag word. -/
theorem exclusive_protFlags {flags : UInt64} (h : ¬ (flags &&& 0x2 ≠ 0 ∧ flags &&& 0x4 ≠ 0)) :
    Exclusive (protFlags flags) := by
  rintro ⟨hw, hx⟩
  refine h ⟨?_, ?_⟩
  · simpa [protFlags] using hw
  · simpa [protFlags] using hx

/-! ## Steps -/

/-- What the calls keep. -/
def Guarded (k : Kernel α) : Prop :=
  ∀ o page pte, (k.halves o).leaves page = some pte →
    (page.huge = true → pte.flags.noExecute = true) ∧ (pte.flags.userAccessible = true → Exclusive pte.flags)

/-- Another half in the place of one. -/
theorem Guarded.setHalf {k : Kernel α} (h : Guarded k) (o : Option Nat) {half : Half}
    (hhalf : ∀ page pte, half.leaves page = some pte →
      (page.huge = true → pte.flags.noExecute = true) ∧ (pte.flags.userAccessible = true → Exclusive pte.flags)) :
    Guarded (k.setHalf o half) := by
  intro o' page pte hleaf
  by_cases ho : o' = o
  · rw [ho, Kernel.setHalf_self] at hleaf
    exact hhalf page pte hleaf
  · rw [Kernel.setHalf_ne k ho] at hleaf
    exact h o' page pte hleaf

/-- The one place where an entry is written. -/
theorem Guarded.mapped {k : Kernel α} (h : Guarded k) {o : Option Nat} {page : Page} {pte : Pte} {half : Half}
    (hpte : Safe page.huge pte.flags) (hmap : Mapped (k.halves o) page pte half) (a : α) :
    Guarded (k.withHalf a o half) := by
  refine Guarded.setHalf (k := k.setFrames a) h o fun q pte' hleaf => ?_
  rcases hmap q with heq | ⟨rfl, -, heq⟩ | ⟨hhuge, old, hold, heq⟩
  · rw [heq] at hleaf
    exact h o q pte' hleaf
  · rw [heq] at hleaf
    cases hleaf
    exact ⟨hpte.2, fun _ => hpte.1⟩
  · -- a huge page in the way gets rights, but not that of execution
    rw [heq] at hleaf
    cases hleaf
    have hnx : old.flags.noExecute = true := (h o q old hold).1 hhuge
    exact ⟨fun _ => hnx, fun _ => exclusive_of_noExecute hnx⟩

/-- The step from one state of a call to the next. -/
abbrev KeepsExclusive {β : Type} (m : Mem α β) : Prop := Keeps (Preserves Guarded) m

theorem mapStep_exclusive {huge : Bool} {flags : PageTableFlags} (h : Safe huge flags) (t virt phys : Nat) :
    MapStep A (Preserves Guarded) huge t virt flags phys := fun _ _ a _ _ hmap hk => hk.mapped h hmap a

theorem clear_exclusive (o : Option Nat) (page : Page) (k : Kernel α) : Preserves Guarded k (k.clear o page) :=
  fun hk o' q pte hleaf => hk o' q pte (Kernel.of_leaves_clear hleaf)

/-- New frames change no entry. -/
theorem frames_exclusive (k : Kernel α) (a : α) : Preserves Guarded k (k.setFrames a) := id

theorem exclusive_modify {f : Kernel α → Kernel α} (h : ∀ k, (f k).halves = k.halves) :
    KeepsExclusive (modify f : Mem α Unit) :=
  .modify fun k hk o => by rw [h]; exact hk o

theorem exclusive_drawId : KeepsExclusive (drawId : Mem α Nat) := by
  intro k r k' hrun
  cases hrun
  exact id

theorem exclusive_freeAll (order : Nat) (pages : List Nat) : KeepsExclusive (freeAll A order pages) :=
  keeps_freeAll frames_exclusive order pages

variable (W : PlatformLaws A)

include W

theorem exclusive_mapFresh (t base : Nat) {flags : PageTableFlags} (hflags : Exclusive flags) (n i : Nat) :
    KeepsExclusive (mapFresh A t base flags n i) :=
  keeps_mapFresh frames_exclusive W fun _ _ _ _ => mapStep_exclusive ⟨hflags, fun h => by cases h⟩ _ _ _

theorem exclusive_protectPages (t base : Nat) {flags : PageTableFlags} (hflags : Exclusive flags) (n i : Nat) :
    KeepsExclusive (protectPages A t base flags n i) := by
  induction n generalizing i with
  | zero => exact .pure _
  | succ n ih =>
    refine .bind ?_ fun ok => .ite (fun _ => ih _) fun _ => .pure _
    refine .bind (fun k _ k' hrun => (checked_ok hrun).2 ▸ id) fun v => .bind .get fun k => ?_
    split
    · exact .pure _
    · refine .bind (keeps_unmap W (clear_exclusive _ _)) fun frame => ?_
      split
      · exact .pure _
      · exact keeps_mapTo W fun k a half _ hmap hk => hk.mapped ⟨hflags, fun h => by cases h⟩ hmap a

theorem exclusive_release (r : SharedMemory) (mappings : List (Nat × Nat)) : KeepsExclusive (release A r mappings) :=
  .bind (keeps_clearMappings W _ fun _ _ _ => clear_exclusive _ _) fun _ => exclusive_freeAll _ _

theorem exclusive_destroyRegions (t : Nat) (regions : List SharedMemory) :
    KeepsExclusive (destroyRegions A t regions) := by
  induction regions with
  | nil => exact .pure _
  | cons r rest ih => exact .bind (exclusive_release W _ _) fun _ => ih

/-! ## Calls -/

theorem exclusive_mmap (t : Nat) (hint size : UInt64) {flags : UInt64}
    (hflags : ¬ (flags &&& 0x2 ≠ 0 ∧ flags &&& 0x4 ≠ 0)) : KeepsExclusive (syscallMmap A t hint size flags) := by
  have hauto : ∀ n, KeepsExclusive (automaticAddr n : Mem α _) := by
    intro n k r k' hrun
    obtain ⟨r, k₁, hrun', hhalves, -⟩ := automaticAddr_run n k
    rw [hrun'] at hrun
    cases hrun
    exact fun hk o => by rw [hhalves]; exact hk o
  refine .ite (fun _ => .pure _) fun _ => .bind (.ite (fun _ => .pure _) fun _ => hauto _) fun base => ?_
  split
  · exact .pure _
  · exact .bind (exclusive_mapFresh W _ _ (exclusive_protFlags hflags) _ _) fun ok =>
      .ite (fun _ => .pure _) fun _ => .pure _

theorem exclusive_mprotect (t : Nat) (virt size flags : UInt64) :
    KeepsExclusive (syscallMprotect A t virt size flags) := by
  refine .ite (fun _ => .pure _) fun _ => .ite (fun _ => .pure _) fun _ => .ite (fun _ => .pure _) fun _ => ?_
  -- the handler's own check
  exact .ite (fun _ => .pure _) fun hboth => exclusive_protectPages W _ _ (exclusive_protFlags hboth) _ _

theorem exclusive_munmap (t : Nat) (virt size : UInt64) : KeepsExclusive (syscallMunmap A t virt size) := by
  refine .ite (fun _ => .pure _) fun _ =>
    .bind (keeps_unmapAndFree frames_exclusive W 0 fun _ _ _ => clear_exclusive _ _) fun freed => ?_
  exact .bind (.when fun _ => exclusive_modify fun _ => rfl) fun _ => .pure _

omit W in
theorem exclusive_shmemCreate (t size : Nat) (perms : ShmemPerms) : KeepsExclusive (shmemCreate A t size perms) := by
  refine .ite (fun _ => .pure _) fun _ => .bind (keeps_allocRegion frames_exclusive _ _ _) fun pages => ?_
  split
  · exact .pure _
  · refine .bind exclusive_drawId fun id => .ite (fun _ => .pure _) fun _ => ?_
    exact .bind (exclusive_modify fun _ => rfl) fun _ => .pure _

omit W in
theorem exclusive_readIntoShmem (t dataLen : Nat) (reads : Bool) :
    KeepsExclusive (readIntoShmem A t dataLen reads) := by
  have hcreate : KeepsExclusive (shmemCreateHuge A t dataLen .readWrite) := by
    refine .ite (fun _ => .pure _) fun _ => .bind (keeps_allocRegion frames_exclusive _ _ _) fun pages => ?_
    split
    · exact exclusive_shmemCreate _ _ _
    · refine .bind exclusive_drawId fun id => .ite (fun _ => ?_) fun _ => ?_
      · exact .bind (exclusive_freeAll _ _) fun _ => .pure _
      · exact .bind (exclusive_modify fun _ => rfl) fun _ => .pure _
  refine .bind hcreate fun r => ?_
  split <;> exact .pure _

theorem exclusive_shmemMap (t : Nat) (id virt : UInt64) : KeepsExclusive (syscallShmemMap A t id virt) := by
  unfold syscallShmemMap
  split
  · exact .pure _
  · refine .ite (fun _ => .pure _) fun _ => .bind (.bind .get fun k => ?_) fun _ => .pure _
    split
    · exact .pure _
    · refine .ite (fun _ => .pure _) fun _ => .ite (fun _ => .pure _) fun _ => ?_
      refine .bind (keeps_mapBlocks W fun _ _ _ => ?_) fun r => ?_
      · exact mapStep_exclusive ⟨exclusive_of_noExecute rfl, fun _ => rfl⟩ _ _ _
      unfold finishMap
      split
      · exact .bind (keeps_unmapBlocks W (fun _ => clear_exclusive _ _) _ _) fun _ => .pure _
      · exact .bind (exclusive_modify fun _ => rfl) fun _ => .pure _

theorem exclusive_shmemUnmap (t : Nat) (id virt : UInt64) : KeepsExclusive (syscallShmemUnmap A t id virt) := by
  unfold syscallShmemUnmap
  split
  · exact .pure _
  · refine .ite (fun _ => .pure _) fun _ => .bind (.bind .get fun k => ?_) fun _ => .pure _
    split
    · exact .pure _
    · refine .ite (fun _ => .pure _) fun _ => .bind (keeps_unmapMapped W (fun _ => clear_exclusive _ _) _ _) fun ok => ?_
      exact .ite (fun _ => .bind (exclusive_modify fun _ => rfl) fun _ => .pure _) fun _ => .pure _

omit W in
theorem exclusive_shmemGrant (t : Nat) (id target : UInt64) :
    KeepsExclusive (syscallShmemGrant t id target : Mem α _) := by
  unfold syscallShmemGrant
  split
  · exact .pure _
  · refine .ite (fun _ => .pure _) fun _ => .bind (.bind .get fun k => ?_) fun _ => .pure _
    split
    · exact .pure _
    · exact .ite (fun _ => .pure _) fun _ => .bind (.when fun _ => exclusive_modify fun _ => rfl) fun _ => .pure _

theorem exclusive_shmemDestroy (t : Nat) (id : UInt64) : KeepsExclusive (syscallShmemDestroy A t id) := by
  unfold syscallShmemDestroy
  split
  · exact .pure _
  · refine .bind (.bind .get fun k => ?_) fun _ => .pure _
    split
    · exact .pure _
    · refine .ite (fun _ => .pure _) fun _ => .bind (exclusive_modify fun _ => rfl) fun _ => ?_
      exact .bind (exclusive_release W _ _) fun _ => .pure _

theorem exclusive_mapPhysical (t : Nat) (phys virt size flags : UInt64) (permitted : Bool) :
    KeepsExclusive (syscallMapPhysical A t phys virt size flags permitted) := by
  refine .ite (fun _ => .pure _) fun _ => .ite (fun _ => .pure _) fun _ => .ite (fun _ => .pure _) fun _ => ?_
  exact .ite (fun _ => .pure _) fun _ =>
    keeps_mapDevice W fun _ => mapStep_exclusive ⟨exclusive_of_noExecute rfl, fun _ => rfl⟩ _ _ _

theorem exclusive_exit (t : Nat) : KeepsExclusive (syscallExit A t) := by
  refine .bind .get fun k => ?_
  split
  · exact .pure _
  · refine .bind (exclusive_modify fun _ => rfl) fun _ => .bind ?_ fun _ => ?_
    · exact .bind .get fun k => .bind (exclusive_modify fun _ => rfl) fun _ => exclusive_destroyRegions W _ _
    · refine .bind (exclusive_modify fun _ => rfl) fun _ => .bind ?_ fun _ => .pure _
      exact .bind .get fun k => .bind (exclusive_freeAll _ _) fun _ => keeps_freePages frames_exclusive _ _

theorem exclusive_spawn (segments : List Segment) : KeepsExclusive (spawn A segments) := by
  have hsegments : ∀ t, KeepsExclusive (loadSegments A t segments) := by
    refine fun t => keeps_loadSegments frames_exclusive W fun seg _ _ _ =>
      mapStep_exclusive ⟨?_, fun h => by cases h⟩ _ _ _
    cases seg.writable
    · exact fun h => by cases h.1
    · exact fun h => by cases h.2
  refine .bind .get fun k => .bind (exclusive_modify fun _ => rfl) fun _ => ?_
  refine .bind (keeps_allocPages frames_exclusive 0) fun pml4 => ?_
  split
  · exact .pure _
  · refine .bind (.modify fun k hk => hk.setHalf _ fun page pte hleaf => by cases hleaf) fun _ => ?_
    refine .bind (hsegments _) fun ok => .ite (fun _ => ?_) fun _ => .pure _
    refine .bind (exclusive_mapFresh W _ _ (fun h => by cases h.2) _ _) fun ok => .ite (fun _ => ?_) fun _ => .pure _
    exact .bind (exclusive_modify fun _ => rfl) fun _ => .pure _

/-- **One call.** -/
theorem maintains_perform {c : Call} (h : c.asksBoth = false) : Step.Maintains Guarded (perform A c) := by
  refine .of_keeps ?_
  cases c with
  | mmap t hint size flags =>
    refine exclusive_mmap W t hint size ?_
    rintro ⟨hw, hx⟩
    rw [Call.asksBoth, bne_iff_ne.mpr hw, bne_iff_ne.mpr hx] at h
    cases h
  | munmap t virt size => exact exclusive_munmap W t virt size
  | mprotect t virt size flags => exact exclusive_mprotect W t virt size flags
  | shmemCreate t size =>
    refine .ite (fun _ => .pure _) fun _ => .bind (exclusive_shmemCreate _ _ _) fun r => ?_
    split <;> exact .pure _
  | readIntoShmem t dataLen reads => exact exclusive_readIntoShmem t dataLen reads
  | shmemGrant t id target => exact exclusive_shmemGrant t id target
  | shmemMap t id virt => exact exclusive_shmemMap W t id virt
  | shmemUnmap t id virt => exact exclusive_shmemUnmap W t id virt
  | shmemDestroy t id => exact exclusive_shmemDestroy W t id
  | mapPhysical t phys virt size flags permitted => exact exclusive_mapPhysical W t phys virt size flags permitted
  | exit t => exact exclusive_exit W t
  | spawn segments => exact .bind (exclusive_spawn W segments) fun _ => .pure _

/-- **Write-xor-execute over a history.**  Whatever the tasks call, no user page is both writable and executable
    as long as no `mmap` asks for both rights. -/
theorem writeXorExecute_run {k k' : Kernel α} (h : WriteXorExecute k) (hhuge : HugeNoExecute k) {calls : List Call}
    (hrun : Run A k calls k') (hcalls : ∀ c ∈ calls, c.asksBoth = false) : WriteXorExecute k' := by
  have hk : Guarded k := fun o page pte hleaf => ⟨hhuge o page pte hleaf, h o page pte hleaf⟩
  clear h hhuge
  induction calls generalizing k with
  | nil =>
    cases hrun
    exact fun o page pte hleaf => (hk o page pte hleaf).2
  | cons c cs ih =>
    obtain ⟨value, k₁, ⟨-, hstep⟩, hrest⟩ := hrun
    have hk₁ := maintains_perform W (hcalls c List.mem_cons_self) k value k₁ hk hstep
    exact ih hrest (fun c' hc' => hcalls c' (List.mem_cons_of_mem _ hc')) hk₁

end

/-- Whether a task has a page that is both. -/
def hasBoth {α : Type} (t addr : Nat) (k : Kernel α) : Bool :=
  (k.entryAt t addr).any fun pte => pte.flags.userAccessible && pte.flags.writable && !pte.flags.noExecute

/-- The steps of a code generator: map for writing, then make executable. -/
theorem writeXorExecute_run_jit :
    ∃ k, Run pc smallMachine [.spawn [], .mmap 1 0 4096 3, .mprotect 1 0x40000000 4096 5] k ∧ WriteXorExecute k := by
  obtain ⟨k, hrun, -⟩ := exists_run pc smallMachine
    [.spawn [], .mmap 1 0 4096 3, .mprotect 1 0x40000000 4096 5] (fun _ => true) (by decide +kernel)
  exact ⟨k, hrun, writeXorExecute_run pc_laws (fun _ _ _ h => by cases h) (fun _ _ _ h => by cases h) hrun (by decide)⟩

/-- **`mmap` maps a page with both rights.** -/
theorem mmap_maps_both : ∃ k, Run pc smallMachine [.spawn [], .mmap 1 0 4096 6] k ∧ ¬ WriteXorExecute k := by
  obtain ⟨k, hrun, hboth⟩ := exists_run pc smallMachine
    [.spawn [], .mmap 1 0 4096 6] (hasBoth 1 0x40000000) (by decide +kernel)
  refine ⟨k, hrun, fun h => ?_⟩
  cases hentry : k.entryAt 1 0x40000000 with
  | none =>
    rw [hasBoth, hentry] at hboth
    cases hboth
  | some pte =>
    rw [hasBoth, hentry] at hboth
    simp only [Option.any_some, Bool.and_eq_true, Bool.not_eq_true'] at hboth
    exact h _ _ pte hentry hboth.1.1 ⟨hboth.1.2, hboth.2⟩

end Folkering.Memory
