/-
  Creating a shared region: `shmem_create` and `shmem_create_huge` (kernel/src/ipc/shared_memory.rs).

  Both take the memory first, block by block, and draw the id afterwards.
    * The loop takes all its blocks, or gives back what it took (`FrameLaws.allocRegion`).
    * So a creation makes one region of blocks that nobody held, or none (`Makes`).
-/
import Folkering.Memory.Frames
import Folkering.Memory.Pages

namespace Folkering.Memory

open Physical (Block)
open List Function

/-- Blocks of one order, by their addresses. -/
def blocksOf (order : Nat) (addrs : List Nat) : List Block := addrs.map fun addr => ⟨addr, order⟩

/-- The order of the block of a page. -/
def orderOf (huge : Bool) : Nat := if huge then hugeOrder else 0

theorem blockSize_orderOf (huge : Bool) : Physical.blockSize (orderOf huge) = blockSize huge := by
  cases huge <;> rfl

theorem orderOf_le (huge : Bool) : orderOf huge ≤ hugeOrder := by
  cases huge <;> decide

/-- The blocks of a region. -/
def SharedMemory.blocks (r : SharedMemory) : List Block := blocksOf r.blockOrder r.physPages

theorem mem_blocksOf {order : Nat} {addrs : List Nat} {b : Block} :
    b ∈ blocksOf order addrs ↔ b.addr ∈ addrs ∧ b.order = order := by
  constructor
  · intro hb
    obtain ⟨addr, haddr, rfl⟩ := mem_map.mp hb
    exact ⟨haddr, rfl⟩
  · rintro ⟨haddr, rfl⟩
    exact mem_map.mpr ⟨b.addr, haddr, rfl⟩

theorem nodup_blocksOf {order : Nat} {addrs : List Nat} : (blocksOf order addrs).Nodup ↔ addrs.Nodup :=
  nodup_map_iff fun _ _ h => (Block.mk.inj h).1

section

variable {α : Type} {A : Platform α} (L : FrameLaws A.toFrameOps) {k k' : Kernel α} {held : List Block} {order : Nat}

/-! ## Taking and giving back -/

/-- Blocks that are held can be given back. -/
theorem FrameLaws.freeAll (ho : order ≤ hugeOrder) (addrs : List Nat) (hgood : L.Good k.frames held)
    (hnodup : addrs.Nodup) (hsub : blocksOf order addrs ⊆ held) :
    ∃ a, freeAll A order addrs k = .ok ((), k.setFrames a) ∧ L.Good a (held.diff (blocksOf order addrs)) := by
  induction addrs generalizing k held with
  | nil => exact ⟨k.frames, rfl, hgood⟩
  | cons addr addrs ih =>
    obtain ⟨haddr, hnodup⟩ := nodup_cons.mp hnodup
    obtain ⟨a, hfree, hgood₁⟩ := L.free_held (b := ⟨addr, order⟩) ho hgood (hsub mem_cons_self)
    have hrest : blocksOf order addrs ⊆ held.erase ⟨addr, order⟩ := by
      intro b hb
      refine (mem_erase_of_ne ?_).mpr (hsub (mem_cons_of_mem _ hb))
      rintro rfl
      exact haddr (mem_blocksOf.mp hb).1
    obtain ⟨a', hrun, hgood'⟩ := ih (k := k.setFrames a) hgood₁ hnodup hrest
    refine ⟨a', ?_, ?_⟩
    · rw [Memory.freeAll, Step.bind_run (freePages_run hfree), hrun]
      rfl
    · rwa [blocksOf, map_cons, diff_cons]

/-- The blocks that a loop has taken go back. -/
theorem FrameLaws.giveBack (ho : order ≤ hugeOrder) {taken : List Nat}
    (hgood : L.Good k.frames (blocksOf order taken.reverse ++ held)) :
    ∃ a held', Memory.freeAll A order taken k = .ok ((), k.setFrames a) ∧ L.Good a held' ∧ ∀ b, b ∈ held' ↔ b ∈ held := by
  have hnodup := L.nodup hgood
  obtain ⟨htaken, -, hdis⟩ := nodup_append'.mp hnodup
  have hmem : ∀ b, b ∈ blocksOf order taken.reverse ↔ b ∈ blocksOf order taken := fun b => by
    rw [mem_blocksOf, mem_blocksOf, mem_reverse]
  obtain ⟨a, hfree, hgood'⟩ := L.freeAll ho taken hgood (nodup_reverse.mp (nodup_blocksOf.mp htaken))
    fun b hb => mem_append_left _ ((hmem b).mpr hb)
  refine ⟨a, _, hfree, hgood', fun b => ?_⟩
  rw [hnodup.mem_sdiff_iff, mem_append, hmem]
  constructor
  · rintro ⟨hb | hb, hnot⟩
    · exact absurd hb hnot
    · exact hb
  · intro hb
    exact ⟨.inr hb, fun hb' => hdis ((hmem b).mpr hb') hb⟩

/-- The loop takes all its blocks, or none stays taken. -/
theorem FrameLaws.allocRegion (ho : order ≤ hugeOrder) (n : Nat) (held : List Block) (taken : List Nat)
    (hgood : L.Good k.frames (blocksOf order taken.reverse ++ held)) :
    ∃ r a, allocRegion A order n taken k = .ok (r, k.setFrames a) ∧
      ((∃ addrs, r = some addrs ∧ L.Good a (blocksOf order addrs.reverse ++ held)) ∨
        (r = none ∧ ∃ held', L.Good a held' ∧ ∀ b, b ∈ held' ↔ b ∈ held)) := by
  induction n generalizing taken k with
  | zero => exact ⟨_, k.frames, rfl, .inl ⟨taken, rfl, hgood⟩⟩
  | succ n ih =>
    cases halloc : A.alloc k.frames order with
    | mk f a =>
      have hstep : allocPages A order k = .ok (f, k.setFrames a) := by rw [allocPages, halloc]
      rw [Memory.allocRegion, Step.bind_run hstep]
      cases f with
      | some f =>
        have hgood₁ := L.alloc_some ho hgood halloc
        refine ih (k := k.setFrames a) (taken ++ [f]) ?_
        rw [reverse_concat]
        exact hgood₁
      | none =>
        obtain ⟨a', held', hfree, hgood', hmem⟩ := L.giveBack (k := k.setFrames a) ho (L.alloc_none ho hgood halloc)
        refine ⟨none, a', ?_, .inr ⟨rfl, held', hgood', hmem⟩⟩
        show (Memory.freeAll A order taken >>= fun _ => pure none) (k.setFrames a) = _
        rw [Step.bind_run hfree]
        rfl

/-! ## The two calls -/

/-- What a creation does: an error keeps the regions, a success adds one region of blocks that were not held. -/
structure Makes (k : Kernel α) (held : List Block) (t : Nat) (perms : ShmemPerms) (r : Except ShmemError Nat)
    (k' : Kernel α) (held' : List Block) : Prop where
  good : L.Good k'.frames held'
  keeps : held ⊆ held'
  halves : k'.halves = k.halves
  regions : (∃ e, r = .error e ∧ k'.regions = k.regions) ∨
    ∃ made : SharedMemory, r = .ok k.nextShmemId ∧ k'.regions = update k.regions k.nextShmemId (some made) ∧
      made.tasks = [t] ∧ made.mappings = [] ∧ made.blockOrder = orderOf made.huge ∧ made.physPages.Nodup ∧
      ∀ b ∈ made.blocks, b ∈ held' ∧ b ∉ held

/-- The blocks that were taken make a region. -/
theorem makes_region {a : α} {addrs : List Nat} (huge : Bool) (perms : ShmemPerms) (t next : Nat)
    (hgood : L.Good a (blocksOf (orderOf huge) addrs.reverse ++ held)) :
    Makes L k held t perms (.ok k.nextShmemId) (Kernel.setRegion { k.setFrames a with nextShmemId := next } k.nextShmemId
      ⟨addrs, orderOf huge, perms, [t], []⟩) (blocksOf (orderOf huge) addrs.reverse ++ held) := by
  obtain ⟨hnodup, -, hdis⟩ := nodup_append'.mp (L.nodup hgood)
  have hmem : ∀ b ∈ blocksOf (orderOf huge) addrs, b ∈ blocksOf (orderOf huge) addrs.reverse := fun b hb => by
    rw [mem_blocksOf, mem_reverse]
    exact mem_blocksOf.mp hb
  exact ⟨hgood, subset_append_right _ _, rfl, .inr ⟨⟨addrs, orderOf huge, perms, [t], []⟩, rfl, rfl, rfl, rfl,
    by cases huge <;> rfl,
    nodup_reverse.mp (nodup_blocksOf.mp hnodup), fun b hb => ⟨mem_append_left _ (hmem b hb), hdis (hmem b hb)⟩⟩⟩

/-- `shmem_create` makes a region, or none. -/
theorem shmemCreate_makes (hgood : L.Good k.frames held) (t size : Nat) (perms : ShmemPerms) :
    ∃ r k' held', shmemCreate A t size perms k = .ok (r, k') ∧ Makes L k held t perms r k' held' := by
  unfold shmemCreate
  by_cases hsize : size = 0
  · rw [if_pos hsize]
    exact ⟨_, k, held, rfl, hgood, List.Subset.refl _, rfl, .inl ⟨_, rfl, rfl⟩⟩
  rw [if_neg hsize]
  obtain ⟨r, a, halloc, ⟨addrs, rfl, hgood'⟩ | ⟨rfl, held', hgood', hmem⟩⟩ :=
    L.allocRegion (Nat.zero_le _) (blocksFor false size) held [] hgood
  · rw [Step.bind_run halloc]
    by_cases hid : k.nextShmemId = 0
    · refine ⟨.error .idOverflow, { k.setFrames a with nextShmemId := (k.nextShmemId + 1) % 2 ^ 32 }, _, ?_, hgood',
        subset_append_right _ _, rfl, .inl ⟨_, rfl, rfl⟩⟩
      simp only [Step.bind_run (show drawId (k.setFrames a) = _ from rfl)]
      rw [if_pos (show (k.setFrames a).nextShmemId = 0 from hid)]
      rfl
    · refine ⟨_, _, _, ?_, makes_region L false perms t ((k.nextShmemId + 1) % 2 ^ 32) hgood'⟩
      simp only [Step.bind_run (show drawId (k.setFrames a) = _ from rfl)]
      rw [if_neg (show (k.setFrames a).nextShmemId ≠ 0 from hid)]
      rfl
  · rw [Step.bind_run halloc]
    exact ⟨_, _, held', rfl, hgood', fun b hb => (hmem b).mpr hb, rfl, .inl ⟨_, rfl, rfl⟩⟩

/-- So does `shmem_create_huge`, which gives its blocks back before it falls back on `shmem_create`. -/
theorem shmemCreateHuge_makes (hgood : L.Good k.frames held) (t size : Nat) (perms : ShmemPerms) :
    ∃ r k' held', shmemCreateHuge A t size perms k = .ok (r, k') ∧ Makes L k held t perms r k' held' := by
  unfold shmemCreateHuge
  by_cases hsize : size = 0
  · rw [if_pos hsize]
    exact ⟨_, k, held, rfl, hgood, List.Subset.refl _, rfl, .inl ⟨_, rfl, rfl⟩⟩
  rw [if_neg hsize]
  obtain ⟨r, a, halloc, ⟨addrs, rfl, hgood'⟩ | ⟨rfl, held', hgood', hmem⟩⟩ :=
    L.allocRegion (Nat.le_refl hugeOrder) (blocksFor true size) held [] hgood
  · rw [Step.bind_run halloc]
    by_cases hid : k.nextShmemId = 0
    · obtain ⟨a', held', hfree, hgood'', hmem⟩ := L.giveBack
        (k := { k.setFrames a with nextShmemId := (k.nextShmemId + 1) % 2 ^ 32 }) (Nat.le_refl hugeOrder) hgood'
      refine ⟨.error .idOverflow, Kernel.setFrames { k.setFrames a with nextShmemId := (k.nextShmemId + 1) % 2 ^ 32 } a',
        held', ?_, hgood'', fun b hb => (hmem b).mpr hb, rfl, .inl ⟨_, rfl, rfl⟩⟩
      simp only [Step.bind_run (show drawId (k.setFrames a) = _ from rfl)]
      rw [if_pos (show (k.setFrames a).nextShmemId = 0 from hid)]
      exact (Step.bind_run hfree).trans rfl
    · refine ⟨_, _, _, ?_, makes_region L true perms t ((k.nextShmemId + 1) % 2 ^ 32) hgood'⟩
      simp only [Step.bind_run (show drawId (k.setFrames a) = _ from rfl)]
      rw [if_neg (show (k.setFrames a).nextShmemId ≠ 0 from hid)]
      rfl
  · rw [Step.bind_run halloc]
    obtain ⟨r, k', held'', hrun, hmakes⟩ := shmemCreate_makes L (k := k.setFrames a) hgood' t size perms
    refine ⟨r, k', held'', hrun, hmakes.good, fun b hb => hmakes.keeps ((hmem b).mpr hb), hmakes.halves, ?_⟩
    rcases hmakes.regions with herror | ⟨made, hr, hregions, htasks, hmappings, horder, hnodup, hnew⟩
    · exact .inl herror
    · refine .inr ⟨made, hr, hregions, htasks, hmappings, horder, hnodup, fun b hb => ?_⟩
      exact ⟨(hnew b hb).1, fun hb' => (hnew b hb).2 ((hmem b).mpr hb')⟩

end

end Folkering.Memory
