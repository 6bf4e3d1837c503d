/-
  Who may use a shared region.

  The access list of a region has its creator first; `shmem_grant` appends to it and `shmem_revoke` filters it.
  * `shmem_destroy` looks for the caller ANYWHERE on the list, so every grantee may destroy the region
    (`destroy_by_creator_iff`).
  * `shmem_revoke` changes the list and no page table, so a task keeps what it has mapped (`revoke_effective_iff`).
  These, and `regions_isolated`, rest on one description of a call (`Effect`): which blocks are held, what happens to
  each region, and where a new page entry can come from.  A region of either page size is a list of blocks, and so is what
  a page entry maps.
-/
import Folkering.Memory.Creation
import Folkering.Memory.Programs

namespace Folkering.Memory

open List Function Option

open Physical (Block)
open Spans

/-! ## Calls -/

section

variable {α : Type} (A : Platform α)

/-- Only the first task on the list may revoke; it stays on the list. -/
def shmemRevoke (t id target : Nat) : Mem α (Except ShmemError Unit) := do
  let k ← get
  match k.regions id with
  | none => pure (.error .invalidId)
  | some shmem =>
    if shmem.tasks.head? ≠ some t then pure (.error .permissionDenied)
    else do
      modify fun k => k.setRegion id { shmem with tasks := shmem.tasks.filter fun u => u == t || u != target }
      pure (.ok ())

/-- The calls on regions. -/
inductive RegionCall where
  | create (t size : Nat) (perms : ShmemPerms)
  /-- made by the kernel, for the model that it reads for the caller -/
  | createHuge (t size : Nat) (perms : ShmemPerms)
  | grant (t id target : Nat)
  | revoke (t id target : Nat)
  | map (t id virt : Nat)
  | unmap (t id virt : Nat)
  | destroy (t id : Nat)
deriving DecidableEq

/-- A call, with the checks that its system call makes first. -/
def RegionCall.perform : RegionCall → Mem α (Except ShmemError Nat)
  | .create t size perms =>
    if 1024 * 1024 * 1024 < size then pure (.error .invalidSize) else shmemCreate A t size perms
  | .createHuge t size perms => shmemCreateHuge A t size perms
  | .grant t id target => do pure ((← shmemGrant t id target).map fun _ => 0)
  | .revoke t id target => do pure ((← shmemRevoke t id target).map fun _ => 0)
  | .map t id virt =>
    if virt = 0 ∨ userTop ≤ virt then pure (.error .invalidSize)
    else do pure ((← shmemMap A t id virt).map fun _ => 0)
  | .unmap t id virt => do pure ((← shmemUnmap A t id virt).map fun _ => 0)
  | .destroy t id => do pure ((← shmemDestroy A t id).map fun _ => 0)

/-- The kernel, and which task created each region (history). -/
structure Watched (α : Type) where
  kernel : Kernel α
  creator : Nat → Option Nat

/-- The history after a creation by `t`. -/
def recordMade (t : Nat) : Except ShmemError Nat → (Nat → Option Nat) → Nat → Option Nat
  | .ok id, creator => update creator id (some t)
  | .error _, creator => creator

/-- The history after a call. -/
def RegionCall.record : RegionCall → Except ShmemError Nat → (Nat → Option Nat) → Nat → Option Nat
  | .create t _ _, r, creator | .createHuge t _ _, r, creator => recordMade t r creator
  | _, _, creator => creator

/-- One call of a kind. -/
def CallStep (allowed : RegionCall → Prop) (s s' : Watched α) : Prop :=
  ∃ c r, allowed c ∧ c.perform A s.kernel = .ok (r, s'.kernel) ∧ s'.creator = c.record r s.creator

/-- Calls of a kind, one after the other. -/
abbrev Calls (allowed : RegionCall → Prop) : Watched α → Watched α → Prop := Relation.ReflTransGen (CallStep A allowed)

/-- The state after calls that return, as a function. -/
def afterCalls (s : Watched α) : List RegionCall → Option (Watched α)
  | [] => some s
  | c :: cs =>
    match c.perform A s.kernel with
    | .ok (r, k) => afterCalls ⟨k, c.record r s.creator⟩ cs
    | .error _ => none

/-- What `afterCalls` computes is such a sequence. -/
theorem calls_of_afterCalls {allowed : RegionCall → Prop} {s s' : Watched α} {cs : List RegionCall}
    (hall : ∀ c ∈ cs, allowed c) (h : afterCalls A s cs = some s') : Calls A allowed s s' := by
  induction cs generalizing s with
  | nil =>
    cases h
    exact .refl
  | cons c cs ih =>
    unfold afterCalls at h
    split at h
    · next r k hrun =>
      exact .head ⟨c, r, hall c mem_cons_self, hrun, rfl⟩ (ih (fun c' hc => hall c' (mem_cons_of_mem _ hc)) h)
    · cases h

/-- Calls whose last state passes a test. -/
theorem exists_calls (allowed : RegionCall → Prop) (s : Watched α) (cs : List RegionCall)
    (test : Watched α → Bool) (hall : ∀ c ∈ cs, allowed c) (h : (afterCalls A s cs).any test = true) :
    ∃ s', Calls A allowed s s' ∧ test s' = true := by
  cases hafter : afterCalls A s cs with
  | none =>
    rw [hafter] at h
    cases h
  | some s' =>
    rw [hafter] at h
    exact ⟨s', calls_of_afterCalls A hall hafter, h⟩

end

section

variable {α : Type} {A : Platform α} {L : FrameLaws A.toFrameOps} {k k' : Kernel α} {held held' : List Block}

/-! ## What a call can do -/

/-- The block that an entry for a page maps. -/
def blockOf (page : Page) (frame : Nat) : Block := ⟨frame, orderOf page.huge⟩

/-- Every region has its own blocks. -/
structure RegionBooks (L : FrameLaws A.toFrameOps) (k : Kernel α) (held : List Block) : Prop where
  good : L.Good k.frames held
  nodup : ∀ id r, k.regions id = some r → r.physPages.Nodup
  order : ∀ id r, k.regions id = some r → r.blockOrder = orderOf r.huge
  holds : ∀ id r, k.regions id = some r → ∀ b ∈ r.blocks, b ∈ held
  apart : ∀ id r id' r' b, k.regions id = some r → k.regions id' = some r' → b ∈ r.blocks → b ∈ r'.blocks → id = id'

/-- The region `r'` comes from `r`: its blocks stay, and only the call's own grant adds to its list. -/
structure Carried (c : RegionCall) (id : Nat) (r r' : SharedMemory) : Prop where
  pages : r'.physPages = r.physPages
  order : r'.blockOrder = r.blockOrder
  tasks : ∀ u ∈ r'.tasks, u ∈ r.tasks ∨ ∃ t, c = .grant t id u

/-- What a call can do, with the blocks that are held before and after. -/
structure Effect (L : FrameLaws A.toFrameOps) (c : RegionCall) (k k' : Kernel α) (held held' : List Block) : Prop where
  good : L.Good k'.frames held'
  keeps : (∀ t id, c ≠ .destroy t id) → held ⊆ held'
  regions : ∀ id r', k'.regions id = some r' → (∀ b ∈ r'.blocks, b ∈ held') ∧
    ((∃ r, k.regions id = some r ∧ Carried c id r r') ∨
      (id = k.nextShmemId ∧ r'.physPages.Nodup ∧ r'.blockOrder = orderOf r'.huge ∧ ∀ b ∈ r'.blocks, b ∉ held))
  entries : ∀ u page f, (k'.halves (some u)).frameAt page = some f → (k.halves (some u)).frameAt page = some f ∨
    ∃ id r virt, c = .map u id virt ∧ k.regions id = some r ∧ u ∈ r.tasks ∧ blockOf page f ∈ r.blocks

/-- The regions stay, frames are only taken, and a new page entry of `t` maps one of `blocks`. -/
structure Adds (A : Platform α) (t : Nat) (blocks : List Block) (k k' : Kernel α) : Prop where
  regions : k'.regions = k.regions
  draws : Draws A.toFrameOps k.frames k'.frames
  entries : ∀ u page f, (k'.halves (some u)).frameAt page = some f → (k.halves (some u)).frameAt page = some f ∨
    u = t ∧ blockOf page f ∈ blocks

instance (t : Nat) (blocks : List Block) : Std.Refl (Adds A t blocks) :=
  ⟨fun _ => ⟨rfl, .refl, fun _ _ _ h => .inl h⟩⟩

instance (t : Nat) (blocks : List Block) : IsTrans (Kernel α) (Adds A t blocks) :=
  ⟨fun _ _ _ h h' => ⟨h'.regions.trans h.regions, h.draws.trans h'.draws, fun u page f hp =>
    (h'.entries u page f hp).elim (h.entries u page f) .inr⟩⟩

/-- Clearing an entry adds none. -/
theorem adds_clear (t : Nat) (blocks : List Block) (o : Option Nat) (page : Page) (k : Kernel α) :
    Adds A t blocks k (k.clear o page) := by
  refine ⟨rfl, .refl, fun v q f h => .inl ?_⟩
  obtain ⟨pte, hpte, rfl⟩ := Option.map_eq_some_iff.mp h
  exact Option.map_eq_some_iff.mpr ⟨pte, Kernel.of_leaves_clear hpte, rfl⟩

/-- The loop of `shmem_map`. -/
theorem adds_mapBlocks (W : PlatformLaws A) {t virt : Nat} {flags : Capability.PageTableFlags} {huge : Bool}
    {pages : List Nat} (i : Nat) (haligned : ∀ phys ∈ pages, phys % blockSize huge = 0) :
    Step.Keeps (Adds A t (blocksOf (orderOf huge) pages)) (mapBlocks A huge t virt flags pages i) := by
  refine keeps_mapBlocks W fun phys hphys j _ k a half hdraws hmap => ⟨rfl, hdraws, fun u page f h => ?_⟩
  rw [W.aligned (haligned phys hphys)] at hmap
  by_cases ho : some u = Kernel.halfOf t (blockAt (blockSize huge) virt j)
  · rw [ho, Kernel.withHalf_self] at h
    rcases hmap.frameAt page with heq | ⟨rfl, -, hnew⟩
    · exact .inl (by rw [ho, ← heq]; exact h)
    · rw [Half.frameAt, hnew] at h
      cases h
      unfold Kernel.halfOf at ho
      split at ho
      · exact .inr ⟨some.inj ho, mem_blocksOf.mpr ⟨hphys, rfl⟩⟩
      · cases ho
  · rw [Kernel.withHalf_ne k a ho] at h
    exact .inl h

/-! ## The effects -/

variable {c : RegionCall}

/-- The regions stay as they are. -/
theorem RegionBooks.same (h : RegionBooks L k held) {t : Nat} {blocks : List Block} (ha : Adds A t blocks k k')
    (hnew : ∀ b ∈ blocks, ∃ id r virt, c = .map t id virt ∧ k.regions id = some r ∧ t ∈ r.tasks ∧ b ∈ r.blocks) :
    ∃ held', Effect L c k k' held held' := by
  obtain ⟨held', hgood, hsub⟩ := L.draws h.good ha.draws
  refine ⟨held', hgood, fun _ => hsub, fun id r' hr => ?_, fun u page f hp => ?_⟩
  · rw [ha.regions] at hr
    exact ⟨fun b hb => hsub (h.holds id r' hr b hb), .inl ⟨r', hr, rfl, rfl, fun u hu => .inl hu⟩⟩
  · rcases ha.entries u page f hp with hold | ⟨rfl, hf⟩
    · exact .inl hold
    · exact .inr (hnew _ hf)

/-- A call that changes nothing. -/
theorem RegionBooks.idle (h : RegionBooks L k held) : ∃ held', Effect L c k k held held' :=
  h.same (refl k : Adds A 0 [] k k) fun f hf => by cases hf

/-- One region is changed, not its blocks. -/
theorem Effect.setRegion {id : Nat} {r r' : SharedMemory} (h : Effect L c k k' held held') (hr : k.regions id = some r)
    (hin : ∀ b ∈ r.blocks, b ∈ held') (hc : Carried c id r r') : Effect L c k (k'.setRegion id r') held held' := by
  refine ⟨h.good, h.keeps, fun id' r'' hr'' => ?_, h.entries⟩
  by_cases hid : id' = id
  · subst hid
    rw [setRegion_self] at hr''
    cases hr''
    refine ⟨?_, .inl ⟨r, hr, hc⟩⟩
    rw [SharedMemory.blocks, hc.order, hc.pages]
    exact hin
  · rw [setRegion_ne _ hid] at hr''
    exact h.regions id' r'' hr''

theorem RegionBooks.setRegion {id : Nat} {r r' : SharedMemory} (h : RegionBooks L k held) (hr : k.regions id = some r)
    (hc : Carried c id r r') : ∃ held', Effect L c k (k.setRegion id r') held held' := by
  obtain ⟨held', he⟩ := h.idle (c := c)
  exact ⟨held', he.setRegion hr (he.regions id r hr).1 hc⟩

/-- A creation adds one region with fresh blocks, or none. -/
theorem effect_create {t : Nat} {perms : ShmemPerms} {r : Except ShmemError Nat} (h : RegionBooks L k held)
    (hmakes : Makes L k held t perms r k' held') : Effect L c k k' held held' := by
  refine ⟨hmakes.good, fun _ => hmakes.keeps, fun id r' hr => ?_, fun _ _ _ hp => .inl (by rw [← hmakes.halves]; exact hp)⟩
  by_cases hold : k.regions id = some r'
  · exact ⟨fun b hb => hmakes.keeps (h.holds id r' hold b hb), .inl ⟨r', hold, rfl, rfl, fun u hu => .inl hu⟩⟩
  · rcases hmakes.regions with ⟨e, -, hsame⟩ | ⟨made, -, hregions, -, -, horder, hnodup, hnew⟩
    · exact absurd (by rw [← hsame]; exact hr) hold
    · rw [hregions] at hr
      by_cases hid : id = k.nextShmemId
      · rw [hid, update_self] at hr
        cases hr
        exact ⟨fun b hb => (hnew b hb).1, .inr ⟨hid, hnodup, horder, fun b hb => (hnew b hb).2⟩⟩
      · rw [update_of_ne hid] at hr
        exact absurd hr hold

/-- The blocks of a region are aligned to its page size. -/
theorem RegionBooks.aligned (h : RegionBooks L k held) {id : Nat} {r : SharedMemory} (hr : k.regions id = some r) :
    ∀ phys ∈ r.physPages, phys % blockSize r.huge = 0 := by
  intro phys hphys
  have hdvd := (L.placed h.good (h.holds id r hr ⟨phys, r.blockOrder⟩ (mem_blocksOf.mpr ⟨hphys, rfl⟩))).1
  simp only [h.order id r hr, blockSize_orderOf] at hdvd
  exact Nat.mod_eq_zero_of_dvd hdvd

/-- `shmem_map`. -/
theorem effect_map (W : PlatformLaws A) {t id virt : Nat} {r : Except ShmemError Unit} (h : RegionBooks L k held)
    (hrun : shmemMap A t id virt k = .ok (r, k')) : ∃ held', Effect L (.map t id virt) k k' held held' := by
  rw [shmemMap, Step.bind_run (Step.get_run k)] at hrun
  cases hr : k.regions id with
  | none =>
    rw [hr] at hrun
    cases hrun
    exact h.idle
  | some shmem =>
    simp only [hr] at hrun
    split at hrun
    · cases hrun
      exact h.idle
    split at hrun
    · cases hrun
      exact h.idle
    next htask =>
    obtain ⟨res, k₁, hmap, hrun⟩ := Step.bind_ok.mp hrun
    have hblocks : blocksOf (orderOf shmem.huge) shmem.physPages = shmem.blocks := by
      rw [← h.order id shmem hr]
      rfl
    have hadds := adds_mapBlocks W 0 (h.aligned hr) k res k₁ hmap
    rw [hblocks] at hadds
    have hnew : ∀ b ∈ shmem.blocks, ∃ id' r virt', RegionCall.map t id virt = .map t id' virt' ∧ k.regions id' = some r ∧
        t ∈ r.tasks ∧ b ∈ r.blocks := fun b hb => ⟨id, shmem, virt, rfl, hr, not_not.mp htask, hb⟩
    cases res with
    | error mapped =>
      obtain ⟨u, k₂, hback, hrun⟩ := Step.bind_ok.mp hrun
      cases hrun
      have hundo : Adds A t shmem.blocks k₁ k' :=
        keeps_unmapBlocks W (fun j => adds_clear t shmem.blocks _ _) mapped 0 k₁ u k' hback
      exact h.same (IsTrans.trans _ _ _ hadds hundo) hnew
    | ok u =>
      cases hrun
      obtain ⟨held', he⟩ := h.same hadds hnew
      exact ⟨held', he.setRegion hr (he.regions id shmem (by rw [hadds.regions]; exact hr)).1
        ⟨rfl, rfl, fun u hu => .inl hu⟩⟩

/-- `shmem_unmap`. -/
theorem effect_unmap (W : PlatformLaws A) {t id virt : Nat} {r : Except ShmemError Unit} (h : RegionBooks L k held)
    (hrun : shmemUnmap A t id virt k = .ok (r, k')) : ∃ held', Effect L c k k' held held' := by
  rw [shmemUnmap, Step.bind_run (Step.get_run k)] at hrun
  cases hr : k.regions id with
  | none =>
    rw [hr] at hrun
    cases hrun
    exact h.idle
  | some shmem =>
    simp only [hr] at hrun
    split at hrun
    · cases hrun
      exact h.idle
    obtain ⟨ok, k₁, hunmap, hrun⟩ := Step.bind_ok.mp hrun
    have hadds : Adds A t [] k k₁ := keeps_unmapMapped W (fun j => adds_clear t [] _ _) _ 0 k ok k₁ hunmap
    obtain ⟨held', he⟩ := h.same (c := c) hadds fun b hb => by cases hb
    cases ok with
    | false =>
      cases hrun
      exact ⟨held', he⟩
    | true =>
      cases hrun
      exact ⟨held', he.setRegion hr (he.regions id shmem (by rw [hadds.regions]; exact hr)).1
        ⟨rfl, rfl, fun u hu => .inl hu⟩⟩

/-- A grant adds to the list of the region, or does nothing. -/
theorem shmemGrant_run {t id target : Nat} {r : Except ShmemError Unit}
    (hrun : shmemGrant t id target k = .ok (r, k')) : k' = k ∨ ∃ shmem, k.regions id = some shmem ∧
      target ∉ shmem.tasks ∧ k' = k.setRegion id { shmem with tasks := shmem.tasks ++ [target] } := by
  rw [shmemGrant, Step.bind_run (Step.get_run k)] at hrun
  cases hr : k.regions id with
  | none =>
    rw [hr] at hrun
    cases hrun
    exact .inl rfl
  | some shmem =>
    simp only [hr] at hrun
    split at hrun
    · cases hrun
      exact .inl rfl
    unfold Step.when at hrun
    split at hrun
    · next hnot =>
      cases hrun
      exact .inr ⟨shmem, rfl, hnot, rfl⟩
    · cases hrun
      exact .inl rfl

/-- A revocation that succeeds: the caller is first on the list, and only the list changes. -/
theorem shmemRevoke_run {t id target : Nat} {r : Except ShmemError Unit}
    (hrun : shmemRevoke t id target k = .ok (r, k')) : (r ≠ .ok () ∧ k' = k) ∨
      ∃ shmem, k.regions id = some shmem ∧ shmem.tasks.head? = some t ∧
        k' = k.setRegion id { shmem with tasks := shmem.tasks.filter fun u => u == t || u != target } := by
  rw [shmemRevoke, Step.bind_run (Step.get_run k)] at hrun
  cases hr : k.regions id with
  | none =>
    rw [hr] at hrun
    cases hrun
    exact .inl ⟨(fun h => by cases h), rfl⟩
  | some shmem =>
    simp only [hr] at hrun
    split at hrun
    · cases hrun
      exact .inl ⟨(fun h => by cases h), rfl⟩
    next hhead =>
    cases hrun
    exact .inr ⟨shmem, rfl, not_not.mp hhead, rfl⟩

/-- `shmem_destroy` takes the region out and gives its blocks back. -/
theorem effect_destroy (W : PlatformLaws A) {t id : Nat} {r : Except ShmemError Unit} (h : RegionBooks L k held)
    (hrun : shmemDestroy A t id k = .ok (r, k')) : (∃ held', Effect L (.destroy t id) k k' held held') ∧
      ∀ id' r', k'.regions id' = some r' → k.regions id' = some r' := by
  rw [shmemDestroy, Step.bind_run (Step.get_run k)] at hrun
  cases hr : k.regions id with
  | none =>
    rw [hr] at hrun
    cases hrun
    exact ⟨h.idle, fun _ _ hr => hr⟩
  | some shmem =>
    simp only [hr] at hrun
    split at hrun
    · cases hrun
      exact ⟨h.idle, fun _ _ hr => hr⟩
    rw [Step.bind_run (Step.modify_run _ _)] at hrun
    obtain ⟨u, k₂, hrelease, hrun⟩ := Step.bind_ok.mp hrun
    cases hrun
    obtain ⟨u, k₁, hclear, hfree⟩ := Step.bind_ok.mp hrelease
    have hadds : Adds A 0 [] (k.removeRegion id) k₁ :=
      keeps_clearMappings W _ (fun m _ j => adds_clear 0 [] _ _) _ u k₁ hclear
    have hframes : k₁.frames = (k.removeRegion id).frames := by
      have : Std.Refl fun k k' : Kernel α => k'.frames = k.frames := ⟨fun _ => rfl⟩
      have : IsTrans (Kernel α) fun k k' => k'.frames = k.frames := ⟨fun _ _ _ h h' => h'.trans h⟩
      exact @keeps_clearMappings _ A (fun k k' => k'.frames = k.frames) _ _ _ W _ _ (fun _ _ _ _ => rfl) _ u k₁ hclear
    have hin := h.holds id shmem hr
    have horder : shmem.blockOrder ≤ hugeOrder := by
      rw [h.order id shmem hr]
      exact orderOf_le _
    obtain ⟨a, hfree', hgood⟩ := L.freeAll (k := k₁) horder shmem.physPages (hframes ▸ h.good) (h.nodup id shmem hr) hin
    rw [hfree'] at hfree
    cases hfree
    have hold : ∀ id' r', k₁.regions id' = some r' → id' ≠ id ∧ k.regions id' = some r' := by
      intro id' r' hr'
      rw [hadds.regions] at hr'
      by_cases hid : id' = id
      · simp only [Kernel.removeRegion, hid, update_self] at hr'
        cases hr'
      · simp only [Kernel.removeRegion, update_of_ne hid] at hr'
        exact ⟨hid, hr'⟩
    refine ⟨⟨_, hgood, fun hno => absurd rfl (hno t id), fun id' r' hr' => ?_, fun u page f hp => ?_⟩,
      fun id' r' hr' => (hold id' r' hr').2⟩
    · obtain ⟨hid, hr'⟩ := hold id' r' hr'
      refine ⟨fun b hb => ?_, .inl ⟨r', hr', rfl, rfl, fun u hu => .inl hu⟩⟩
      exact (L.nodup h.good).mem_sdiff_iff.mpr
        ⟨h.holds id' r' hr' b hb, fun hb' => hid (h.apart id' r' id shmem b hr' hr hb hb')⟩
    · rcases hadds.entries u page f hp with hold | ⟨-, hf⟩
      · exact .inl hold
      · cases hf

/-- A region that is mapped nowhere is destroyed by any task on its list. -/
theorem shmemDestroy_succeeds {t id : Nat} {r : SharedMemory} (h : RegionBooks L k held) (hr : k.regions id = some r)
    (hmap : r.mappings = []) (ht : t ∈ r.tasks) : ∃ k', shmemDestroy A t id k = .ok (.ok (), k') := by
  have horder : r.blockOrder ≤ hugeOrder := by
    rw [h.order id r hr]
    exact orderOf_le _
  obtain ⟨a, hfree, -⟩ := L.freeAll (k := k.removeRegion id) horder r.physPages h.good (h.nodup id r hr) (h.holds id r hr)
  refine ⟨(k.removeRegion id).setFrames a, ?_⟩
  rw [shmemDestroy, Step.bind_run (Step.get_run k)]
  simp only [hr, if_neg (not_not.mpr ht), hmap, release, clearMappings, Step.bind_run (Step.modify_run _ _), pure_bind,
    Step.bind_run hfree]
  rfl

/-- **What a call can do.** -/
theorem effect_perform (W : PlatformLaws A) {r : Except ShmemError Nat} (h : RegionBooks L k held)
    (hrun : c.perform A k = .ok (r, k')) : ∃ held', Effect L c k k' held held' := by
  cases c with
  | create t size perms =>
    by_cases hsize : 1024 * 1024 * 1024 < size
    · rw [RegionCall.perform, if_pos hsize] at hrun
      cases hrun
      exact h.idle
    · rw [RegionCall.perform, if_neg hsize] at hrun
      obtain ⟨r', k₁, held', hrun', hmakes⟩ := shmemCreate_makes L h.good t size perms
      rw [hrun'] at hrun
      cases hrun
      exact ⟨held', effect_create h hmakes⟩
  | createHuge t size perms =>
    obtain ⟨r', k₁, held', hrun', hmakes⟩ := shmemCreateHuge_makes L h.good t size perms
    cases hrun'.symm.trans hrun
    exact ⟨held', effect_create h hmakes⟩
  | grant t id target =>
    obtain ⟨x, k₁, h₁, h₂⟩ := Step.bind_ok.mp hrun
    cases h₂
    rcases shmemGrant_run h₁ with rfl | ⟨shmem, hr, -, rfl⟩
    · exact h.idle
    · refine h.setRegion hr ⟨rfl, rfl, fun u hu => ?_⟩
      rcases mem_append.mp hu with hu | hu
      · exact .inl hu
      · exact .inr ⟨t, by rw [mem_singleton.mp hu]⟩
  | revoke t id target =>
    obtain ⟨x, k₁, h₁, h₂⟩ := Step.bind_ok.mp hrun
    cases h₂
    rcases shmemRevoke_run h₁ with ⟨-, rfl⟩ | ⟨r, hr, -, rfl⟩
    · exact h.idle
    · exact h.setRegion hr ⟨rfl, rfl, fun u hu => .inl (mem_filter.mp hu).1⟩
  | map t id virt =>
    by_cases hvirt : virt = 0 ∨ userTop ≤ virt
    · rw [RegionCall.perform, if_pos hvirt] at hrun
      cases hrun
      exact h.idle
    · rw [RegionCall.perform, if_neg hvirt] at hrun
      obtain ⟨x, k₁, h₁, h₂⟩ := Step.bind_ok.mp hrun
      cases h₂
      exact effect_map W h h₁
  | unmap t id virt =>
    obtain ⟨x, k₁, h₁, h₂⟩ := Step.bind_ok.mp hrun
    cases h₂
    exact effect_unmap W h h₁
  | destroy t id =>
    obtain ⟨x, k₁, h₁, h₂⟩ := Step.bind_ok.mp hrun
    cases h₂
    exact (effect_destroy W h h₁).1

/-- Carried regions have the same blocks. -/
theorem Carried.blocks {id : Nat} {r r' : SharedMemory} (h : Carried c id r r') : r'.blocks = r.blocks := by
  rw [SharedMemory.blocks, h.order, h.pages]
  rfl

/-- The books after a call. -/
theorem RegionBooks.step (h : RegionBooks L k held) (he : Effect L c k k' held held') : RegionBooks L k' held' := by
  refine ⟨he.good, fun id r' hr' => ?_, fun id r' hr' => ?_, fun id r' hr' => (he.regions id r' hr').1,
    fun id r₁ id' r₂ b h₁ h₂ hb₁ hb₂ => ?_⟩
  · rcases (he.regions id r' hr').2 with ⟨r, hr, hc⟩ | ⟨-, hnodup, -⟩
    · rw [hc.pages]
      exact h.nodup id r hr
    · exact hnodup
  · rcases (he.regions id r' hr').2 with ⟨r, hr, hc⟩ | ⟨-, -, horder, -⟩
    · rw [SharedMemory.huge, hc.order]
      exact h.order id r hr
    · exact horder
  · rcases (he.regions id r₁ h₁).2 with ⟨r, hr, hc⟩ | ⟨hid, -, -, hnew⟩
    · rw [hc.blocks] at hb₁
      rcases (he.regions id' r₂ h₂).2 with ⟨r', hr', hc'⟩ | ⟨-, -, -, hnew'⟩
      · rw [hc'.blocks] at hb₂
        exact h.apart id r id' r' b hr hr' hb₁ hb₂
      · exact absurd (h.holds id r hr b hb₁) (hnew' b hb₂)
    · rcases (he.regions id' r₂ h₂).2 with ⟨r', hr', hc'⟩ | ⟨hid', -⟩
      · rw [hc'.blocks] at hb₂
        exact absurd (h.holds id' r' hr' b hb₂) (hnew b hb₁)
      · rw [hid, hid']

/-- Blocks of different regions do not meet. -/
theorem RegionBooks.eq_of_meet (h : RegionBooks L k held) {id id' : Nat} {r r' : SharedMemory} {b b' : Block}
    (hr : k.regions id = some r) (hr' : k.regions id' = some r') (hb : b ∈ r.blocks) (hb' : b' ∈ r'.blocks)
    (hmeet : ¬ Apart b.span b'.span) : id = id' := by
  obtain rfl := L.eq_of_meet h.good (h.holds id r hr b hb) (h.holds id' r' hr' b' hb') hmeet
  exact h.apart id r id' r' b hr hr' hb hb'

/-- A kernel without regions, whose allocator is in order. -/
def Fresh (L : FrameLaws A.toFrameOps) (k : Kernel α) : Prop := (∀ id, k.regions id = none) ∧ L.Sound k.frames

/-- Its books are empty. -/
theorem Fresh.books (h : Fresh L k) : ∃ held, RegionBooks L k held := by
  obtain ⟨hnone, held, hgood⟩ := h
  have hno : ∀ {id : Nat} {r : SharedMemory}, k.regions id ≠ some r := fun hr => by
    rw [hnone] at hr
    cases hr
  exact ⟨held, hgood, fun _ _ hr => absurd hr hno, fun _ _ hr => absurd hr hno, fun _ _ hr => absurd hr hno,
    fun _ _ _ _ _ hr => absurd hr hno⟩

/-- The books over a sequence of calls. -/
theorem books_calls (W : PlatformLaws A) {allowed : RegionCall → Prop} {s s' : Watched α} (hs : ∃ held, RegionBooks L s.kernel held)
    (h : Calls A allowed s s') : ∃ held, RegionBooks L s'.kernel held := by
  induction h with
  | refl => exact hs
  | tail _ hstep ih =>
    obtain ⟨held, hb⟩ := ih
    obtain ⟨c, r, -, hrun, -⟩ := hstep
    obtain ⟨held', he⟩ := effect_perform W hb hrun
    exact ⟨held', hb.step he⟩

/-! ## Destroying -/

/-- The calls that map nothing. -/
def RegionCall.mapless : RegionCall → Bool
  | .map _ _ _ | .unmap _ _ _ => false
  | _ => true

/-- The list starts with the creator, which is not on it again, and nothing is mapped. -/
def Owned (s : Watched α) : Prop :=
  ∀ id r, s.kernel.regions id = some r → r.mappings = [] ∧
    ∃ t rest, s.creator id = some t ∧ r.tasks = t :: rest ∧ t ∉ rest

/-- One region of an owned table is changed. -/
theorem Owned.setRegion {s : Watched α} (h : Owned s) {id : Nat} {r : SharedMemory}
    (hr : r.mappings = [] ∧ ∃ t rest, s.creator id = some t ∧ r.tasks = t :: rest ∧ t ∉ rest) :
    Owned ⟨s.kernel.setRegion id r, s.creator⟩ := by
  intro id' r' hr'
  by_cases hid : id' = id
  · subst hid
    rw [setRegion_self] at hr'
    cases hr'
    exact hr
  · exact h id' r' (setRegion_ne s.kernel hid r ▸ hr')

/-- A creation makes an owned region. -/
theorem Owned.make {s : Watched α} (h : Owned s) {t : Nat} {perms : ShmemPerms} {r : Except ShmemError Nat} {k' : Kernel α}
    (hmakes : Makes L s.kernel held t perms r k' held') :
    Owned ⟨k', recordMade t r s.creator⟩ := by
  rcases hmakes.regions with ⟨e, rfl, hregions⟩ | ⟨made, rfl, hregions, htasks, hmappings, -⟩
  · exact fun id r' hr' => h id r' (hregions ▸ hr')
  · intro id r' hr'
    simp only [hregions] at hr'
    simp only [recordMade]
    by_cases hid : id = s.kernel.nextShmemId
    · rw [hid, update_self] at hr'
      cases hr'
      rw [hid, update_self]
      exact ⟨hmappings, t, [], rfl, htasks, not_mem_nil⟩
    · rw [update_of_ne hid] at hr' ⊢
      exact h id r' hr'

theorem Owned.step (W : PlatformLaws A) {s s' : Watched α} (h : Owned s) (hb : ∃ held, RegionBooks L s.kernel held)
    (hstep : CallStep A (·.mapless = true) s s') : Owned s' := by
  obtain ⟨k', creator'⟩ := s'
  obtain ⟨c, r, hc, hrun, hcreator⟩ := hstep
  obtain ⟨held, hb⟩ := hb
  change c.perform A s.kernel = .ok (r, k') at hrun
  change creator' = _ at hcreator
  cases c with
  | create t size perms =>
    by_cases hsize : 1024 * 1024 * 1024 < size
    · rw [RegionCall.perform, if_pos hsize] at hrun
      cases hrun
      cases hcreator
      exact h
    · rw [RegionCall.perform, if_neg hsize] at hrun
      obtain ⟨r', k₁, held', hrun', hmakes⟩ := shmemCreate_makes L hb.good t size perms
      cases hrun'.symm.trans hrun
      rw [hcreator]
      exact h.make hmakes
  | createHuge t size perms =>
    obtain ⟨r', k₁, held', hrun', hmakes⟩ := shmemCreateHuge_makes L hb.good t size perms
    cases hrun'.symm.trans hrun
    rw [hcreator]
    exact h.make hmakes
  | grant t id target =>
    obtain ⟨x, k₁, h₁, h₂⟩ := Step.bind_ok.mp hrun
    cases h₂
    cases hcreator
    rcases shmemGrant_run h₁ with heq | ⟨shmem, hr, hnot, heq⟩
    · cases heq
      exact h
    · cases heq
      obtain ⟨hmap, o, rest, ho, htasks, hrest⟩ := h id shmem hr
      refine h.setRegion ⟨hmap, o, rest ++ [target], ho, by rw [htasks]; rfl, fun hmem => ?_⟩
      rcases mem_append.mp hmem with hmem | hmem
      · exact hrest hmem
      · rw [htasks, mem_singleton.mp hmem] at hnot
        exact hnot mem_cons_self
  | revoke t id target =>
    obtain ⟨x, k₁, h₁, h₂⟩ := Step.bind_ok.mp hrun
    cases h₂
    cases hcreator
    rcases shmemRevoke_run h₁ with ⟨-, heq⟩ | ⟨shmem, hr, hhead, heq⟩
    · cases heq
      exact h
    · cases heq
      obtain ⟨hmap, o, rest, ho, htasks, hrest⟩ := h id shmem hr
      rw [htasks] at hhead
      cases hhead
      refine h.setRegion ⟨hmap, t, rest.filter fun u => u == t || u != target, ho, ?_, fun hmem => ?_⟩
      · rw [htasks, filter_cons_of_pos (by simp)]
      · exact hrest (mem_filter.mp hmem).1
  | map t id virt => cases hc
  | unmap t id virt => cases hc
  | destroy t id =>
    obtain ⟨x, k₁, h₁, h₂⟩ := Step.bind_ok.mp hrun
    cases h₂
    cases hcreator
    exact fun id' r' hr' => h id' r' ((effect_destroy W hb h₁).2 id' r' hr')

/-- **`shmem_destroy` is left to the creator exactly as long as no grantee calls it.** -/
theorem destroy_by_creator_iff (W : PlatformLaws A) {k₀ : Kernel α} (hfresh : Fresh L k₀) {s : Watched α}
    (hrun : Calls A (·.mapless = true) ⟨k₀, fun _ => none⟩ s) (t id : Nat) :
    ((∃ k', shmemDestroy A t id s.kernel = .ok (.ok (), k')) → s.creator id = some t) ↔
      ∀ r, s.kernel.regions id = some r → t ∉ r.tasks.tail := by
  have hbooks := books_calls W hfresh.books hrun
  have howned : Owned s := by
    clear hbooks
    induction hrun with
    | refl => exact fun id r hr => by rw [hfresh.1] at hr; cases hr
    | tail hbefore hstep ih => exact ih.step W (books_calls W hfresh.books hbefore) hstep
  obtain ⟨held, hbooks⟩ := hbooks
  constructor
  · intro h r hr htail
    obtain ⟨hmap, o, rest, ho, htasks, hrest⟩ := howned id r hr
    rw [htasks] at htail
    have hcreator := h (shmemDestroy_succeeds hbooks hr hmap (by rw [htasks]; exact mem_cons_of_mem _ htail))
    rw [ho] at hcreator
    cases hcreator
    exact hrest htail
  · rintro h ⟨k', hdestroy⟩
    rw [shmemDestroy, Step.bind_run (Step.get_run _)] at hdestroy
    cases hr : s.kernel.regions id with
    | none =>
      rw [hr] at hdestroy
      cases hdestroy
    | some r =>
      simp only [hr] at hdestroy
      split at hdestroy
      · cases hdestroy
      next hmem =>
      obtain ⟨-, o, rest, ho, htasks, -⟩ := howned id r hr
      have htail := h r hr
      rw [htasks] at htail hmem
      rcases mem_cons.mp (not_not.mp hmem) with rfl | hrest
      · exact ho
      · exact absurd hrest htail

/-- The kernel in which no region has been made yet. -/
def noRegions : Watched Physical.Pmm := ⟨smallMachine, fun _ => none⟩

/-- It is fresh. -/
theorem noRegions_fresh : Fresh (A := pc) smallLaws noRegions.kernel := ⟨fun _ => rfl, [], smallLaws_good⟩

/-- An entry of `u` was made by a `shmem_map` call, when the region that has the block listed `u`, and has been there
    since. -/
def MadeByMap (A : Platform α) (allowed : RegionCall → Prop) (s₀ : Watched α) (u : Nat) (page : Page) (f : Nat)
    (s : Watched α) : Prop :=
  ∃ s₁ s₂ id virt r res, Calls A allowed s₀ s₁ ∧ (RegionCall.map u id virt).perform A s₁.kernel = .ok (res, s₂.kernel) ∧
    s₁.kernel.regions id = some r ∧ u ∈ r.tasks ∧ blockOf page f ∈ r.blocks ∧
    (s₁.kernel.halves (some u)).frameAt page ≠ some f ∧
    Relation.ReflTransGen (fun a b => CallStep A allowed a b ∧ (a.kernel.halves (some u)).frameAt page = some f) s₂ s

/-- **Isolation.**  Whatever the calls, regions share no memory, and an entry that a page table got in the run was made by
    a `shmem_map` of a region that listed the task at that call. -/
theorem regions_isolated (W : PlatformLaws A) {allowed : RegionCall → Prop} {s₀ s : Watched α}
    (hfresh : Fresh L s₀.kernel) (hrun : Calls A allowed s₀ s) :
    (∀ id r id' r', s.kernel.regions id = some r → s.kernel.regions id' = some r' → id ≠ id' →
      ∀ b ∈ r.blocks, ∀ b' ∈ r'.blocks, Apart b.span b'.span) ∧
    ∀ u page f, (s.kernel.halves (some u)).frameAt page = some f → (s₀.kernel.halves (some u)).frameAt page = some f ∨
      MadeByMap A allowed s₀ u page f s := by
  obtain ⟨held, hb⟩ := books_calls W hfresh.books hrun
  refine ⟨fun id r id' r' hr hr' hne b hb₁ b' hb₂ => ?_, fun u page f hp => ?_⟩
  · by_contra hmeet
    exact hne (hb.eq_of_meet hr hr' hb₁ hb₂ hmeet)
  clear hb
  induction hrun with
  | refl => exact .inl hp
  | @tail s₃ s₄ hbefore hstep ih =>
    obtain ⟨held, hb⟩ := books_calls W hfresh.books hbefore
    obtain ⟨c, res, -, hcall, -⟩ := id hstep
    by_cases hold : (s₃.kernel.halves (some u)).frameAt page = some f
    · rcases ih hold with hfirst | ⟨s₁, s₂, id, virt, r, res, h₁, h₂, h₃, h₄, h₅, h₆, hsince⟩
      · exact .inl hfirst
      · exact .inr ⟨s₁, s₂, id, virt, r, res, h₁, h₂, h₃, h₄, h₅, h₆, hsince.tail ⟨hstep, hold⟩⟩
    · obtain ⟨held', he⟩ := effect_perform W hb hcall
      obtain ⟨id, r, virt, rfl, hr, hu, hf⟩ := (he.entries u page f hp).resolve_left hold
      exact .inr ⟨_, _, id, virt, r, res, hbefore, hcall, hr, hu, hf, hold, .refl⟩

/-- Task 1 maps its region. -/
theorem regions_isolated_mapped : ∃ s f, MadeByMap pc (fun _ => True) noRegions 1 ⟨false, 0x400000⟩ f s := by
  obtain ⟨s, hrun, htest⟩ := exists_calls pc (fun _ => True) noRegions
    [.create 1 4096 .readWrite, .map 1 1 0x400000] (fun s => ((s.kernel.halves (some 1)).frameAt ⟨false, 0x400000⟩).isSome)
    (fun _ _ => trivial) (by decide +kernel)
  obtain ⟨f, hf⟩ := Option.isSome_iff_exists.mp htest
  rcases (regions_isolated pc_laws noRegions_fresh hrun).2 1 _ f hf with h | h
  · cases h
  · exact ⟨s, f, h⟩

/-- Whether a task destroys a region. -/
def destroys (t id : Nat) (k : Kernel Physical.Pmm) : Bool :=
  match shmemDestroy pc t id k with
  | .ok (.ok (), _) => true
  | _ => false

/-- What the test says. -/
theorem of_destroys {t id : Nat} {k : Kernel Physical.Pmm} (h : destroys t id k = true) :
    ∃ k', shmemDestroy pc t id k = .ok (.ok (), k') := by
  unfold destroys at h
  split at h
  · next k' heq => exact ⟨k', heq⟩
  · cases h

/-- Task 1 creates, grants to task 2 and takes that back: then only task 1 destroys. -/
theorem destroy_by_creator_after_revoke :
    ∃ s, Calls pc (·.mapless = true) noRegions s ∧
      (∃ k', shmemDestroy pc 1 1 s.kernel = .ok (.ok (), k')) ∧ s.creator 1 = some 1 := by
  obtain ⟨s, hrun, htest⟩ := exists_calls pc (·.mapless = true) noRegions
    [.create 1 4096 .readWrite, .grant 1 1 2, .revoke 1 1 2]
    (fun s => destroys 1 1 s.kernel && (s.kernel.regions 1).all fun r => !r.tasks.tail.contains 1) (by decide)
    (by decide +kernel)
  obtain ⟨hdestroy, htail⟩ := Bool.and_eq_true_iff.mp htest
  refine ⟨s, hrun, of_destroys hdestroy, (destroy_by_creator_iff pc_laws noRegions_fresh hrun 1 1).mpr ?_ (of_destroys hdestroy)⟩
  intro r hr
  rw [hr, Option.all_some] at htail
  simpa using htail

/-- **A grantee destroys the region.** -/
theorem grantee_destroys :
    ∃ s k', Calls pc (·.mapless = true) noRegions s ∧
      shmemDestroy pc 2 1 s.kernel = .ok (.ok (), k') ∧ s.creator 1 = some 1 := by
  obtain ⟨s, hrun, htest⟩ := exists_calls pc (·.mapless = true) noRegions
    [.create 1 4096 .readWrite, .grant 1 1 2] (fun s => destroys 2 1 s.kernel && s.creator 1 == some 1) (by decide)
    (by decide +kernel)
  obtain ⟨hdestroy, hcreator⟩ := Bool.and_eq_true_iff.mp htest
  obtain ⟨k', hdestroy⟩ := of_destroys hdestroy
  exact ⟨s, k', hrun, hdestroy, by simpa using hcreator⟩

/-! ## Revoking -/

/-- A page of `t` maps a part of one of `blocks`. -/
def Reaches (k : Kernel α) (t : Nat) (blocks : List Block) : Prop :=
  ∃ page f, (k.halves (some t)).frameAt page = some f ∧ ∃ b ∈ blocks, ¬ Apart (blockOf page f).span b.span

/-- The calls after a revocation: `id` is not granted to `t` again, and nothing is destroyed. -/
def RegionCall.aloof (id t : Nat) : RegionCall → Bool
  | .grant _ id' target => id' != id || target != t
  | .destroy _ _ => false
  | _ => true

/-- `t` is kept from `blocks`: they are blocks of `id` alone, `t` is not on its list, and `t` maps none of them. -/
structure Barred (id t : Nat) (blocks : List Block) (k : Kernel α) (held : List Block) : Prop where
  held : ∀ b ∈ blocks, b ∈ held
  alone : ∀ id' r b, k.regions id' = some r → b ∈ r.blocks → b ∈ blocks → id' = id ∧ t ∉ r.tasks
  apart : ¬ Reaches k t blocks

theorem Barred.step {id t : Nat} {blocks : List Block} {c : RegionCall} (h : Barred id t blocks k held)
    (hb : RegionBooks L k held) (hc : c.aloof id t = true) (he : Effect L c k k' held held') :
    Barred id t blocks k' held' := by
  refine ⟨fun b hmem => he.keeps ?_ (h.held b hmem), fun id' r' b hr' hmem hblocks => ?_, ?_⟩
  · rintro t' id' rfl
    cases hc
  · rcases (he.regions id' r' hr').2 with ⟨r, hr, hcarried⟩ | ⟨-, -, -, hnew⟩
    · obtain ⟨rfl, hnot⟩ := h.alone id' r b hr (hcarried.blocks ▸ hmem) hblocks
      refine ⟨rfl, fun hmem => ?_⟩
      rcases hcarried.tasks t hmem with hold | ⟨t', rfl⟩
      · exact hnot hold
      · simp [RegionCall.aloof] at hc
    · exact absurd (h.held b hblocks) (hnew b hmem)
  · rintro ⟨page, f, hf, b, hblocks, hmeet⟩
    rcases he.entries t page f hf with hold | ⟨id', r, -, -, hr, hmem, hblock⟩
    · exact h.apart ⟨page, f, hold, b, hblocks, hmeet⟩
    · -- the entry is new, so it maps a held block, which is `b` itself
      obtain rfl := L.eq_of_meet hb.good (hb.holds id' r hr _ hblock) (h.held b hblocks) hmeet
      exact (h.alone id' r _ hr hblock hblocks).2 hmem

/-- The bar over a sequence of calls. -/
theorem Barred.calls (W : PlatformLaws A) {id t : Nat} {blocks : List Block} {s s' : Watched α}
    (h : ∃ held, RegionBooks L s.kernel held ∧ Barred id t blocks s.kernel held) (hrun : Calls A (·.aloof id t = true) s s') :
    ∃ held, RegionBooks L s'.kernel held ∧ Barred id t blocks s'.kernel held := by
  induction hrun with
  | refl => exact h
  | tail _ hstep ih =>
    obtain ⟨held, hb, hbar⟩ := ih
    obtain ⟨c, r, hc, hrun, -⟩ := hstep
    obtain ⟨held', he⟩ := effect_perform W hb hrun
    exact ⟨held', hb.step he, hbar.step hb hc he⟩

/-- **A revocation takes effect exactly when the task has nothing of the region mapped.** The caller of `shmem_revoke`
stays on the list whatever it revokes. -/
theorem revoke_effective_iff (W : PlatformLaws A) {k₀ k₁ : Kernel α} (hfresh : Fresh L k₀) {s : Watched α}
    (hrun : Calls A (fun _ => True) ⟨k₀, fun _ => none⟩ s) {c id t : Nat} {r : SharedMemory} (ht : t ≠ c)
    (hr : s.kernel.regions id = some r) (hrevoke : shmemRevoke c id t s.kernel = .ok (.ok (), k₁)) :
    (∀ s', Calls A (·.aloof id t = true) ⟨k₁, s.creator⟩ s' → ¬ Reaches s'.kernel t r.blocks) ↔
      ¬ Reaches s.kernel t r.blocks := by
  obtain ⟨held, hb⟩ := books_calls W hfresh.books hrun
  rcases shmemRevoke_run hrevoke with ⟨hne, -⟩ | ⟨shmem, hr', -, rfl⟩
  · exact absurd rfl hne
  rw [hr] at hr'
  cases hr'
  refine ⟨fun h hreach => h ⟨_, s.creator⟩ .refl hreach, fun h s' hlater => ?_⟩
  have hbooks := effect_perform (c := .revoke c id t) W hb (Step.bind_ok.mpr ⟨_, _, hrevoke, rfl⟩)
  obtain ⟨held', he⟩ := hbooks
  have hstart : Barred id t r.blocks (s.kernel.setRegion id
      { r with tasks := r.tasks.filter fun u => u == c || u != t }) held' := by
    refine ⟨fun b hmem => he.keeps (fun _ _ h => by cases h) (hb.holds id r hr b hmem), fun id' r' b hr' hmem hmem' => ?_, h⟩
    by_cases hid : id' = id
    · subst hid
      rw [setRegion_self] at hr'
      cases hr'
      refine ⟨rfl, fun hmem => ?_⟩
      have := (mem_filter.mp hmem).2
      simp [ht] at this
    · rw [setRegion_ne _ hid] at hr'
      exact absurd (hb.apart id' r' id r b hr' hr hmem hmem') hid
  obtain ⟨_, -, hbar⟩ := Barred.calls W ⟨held', hb.step he, hstart⟩ hlater
  exact hbar.apart

/-- The region and the state after a successful revocation. -/
theorem shmemRevoke_ok {c id t : Nat} {r : SharedMemory} (hr : k.regions id = some r) (hhead : r.tasks.head? = some c) :
    shmemRevoke c id t k = .ok (.ok (), k.setRegion id
      { r with tasks := r.tasks.filter fun u => u == c || u != t }) := by
  rw [shmemRevoke, Step.bind_run (Step.get_run k)]
  simp only [hr, hhead, ne_eq, not_true_eq_false, if_false, Step.bind_run (Step.modify_run _ _)]
  rfl

/-- Creating and granting leave the page tables alone. -/
theorem halves_create_grant {s s' : Watched α} {t size t' id u : Nat} {perms : ShmemPerms}
    (hgood : L.Good s.kernel.frames held) (h : afterCalls A s [.create t size perms, .grant t' id u] = some s') :
    s'.kernel.halves = s.kernel.halves := by
  simp only [afterCalls] at h
  split at h
  · next r₁ k₁ h₁ =>
    split at h
    · next r₂ k₂ h₂ =>
      cases h
      have hcreate : k₁.halves = s.kernel.halves := by
        by_cases hsize : 1024 * 1024 * 1024 < size
        · rw [RegionCall.perform, if_pos hsize] at h₁
          cases h₁
          rfl
        · rw [RegionCall.perform, if_neg hsize] at h₁
          obtain ⟨r', k', held', hrun', hmakes⟩ := shmemCreate_makes L hgood t size perms
          cases hrun'.symm.trans h₁
          exact hmakes.halves
      obtain ⟨x, k', hgrant, h₂⟩ := Step.bind_ok.mp h₂
      cases h₂
      rcases shmemGrant_run hgrant with rfl | ⟨shmem, -, -, rfl⟩
      · exact hcreate
      · exact hcreate
    · cases h
  · cases h

/-- Task 2 is granted the region and maps nothing; after the revocation it never will. -/
theorem revoke_effective_unmapped :
    ∃ s r k₁, Calls pc (fun _ => True) noRegions s ∧ s.kernel.regions 1 = some r ∧ 2 ∈ r.tasks ∧
      shmemRevoke 1 1 2 s.kernel = .ok (.ok (), k₁) ∧
      ∀ s', Calls pc (·.aloof 1 2 = true) ⟨k₁, s.creator⟩ s' →
        ¬ Reaches s'.kernel 2 r.blocks := by
  have htest : (afterCalls pc noRegions [.create 1 4096 .readWrite, .grant 1 1 2]).any
      (fun s => (s.kernel.regions 1).any fun r => r.tasks == [1, 2]) = true := by decide +kernel
  obtain ⟨s, hafter, htest⟩ := (any_eq_true _ _).mp htest
  obtain ⟨r, hr, htasks⟩ := (any_eq_true _ _).mp htest
  have htasks : r.tasks = [1, 2] := by simpa using htasks
  have hrun : Calls pc (fun _ => True) noRegions s := calls_of_afterCalls _ (fun _ _ => trivial) hafter
  have hrevoke := shmemRevoke_ok (t := 2) hr (by rw [htasks]; rfl)
  refine ⟨s, r, _, hrun, hr, by rw [htasks]; decide, hrevoke,
    (revoke_effective_iff pc_laws noRegions_fresh hrun (by decide) hr hrevoke).mpr ?_⟩
  rintro ⟨page, f, hf, -⟩
  rw [halves_create_grant (A := pc) (L := smallLaws) smallLaws_good hafter] at hf
  cases hf

/-- **A revoked task keeps its page**: task 2 has the region mapped when task 1 revokes it. -/
theorem revoked_task_keeps_page :
    ∃ s r k₁, Calls pc (fun _ => True) noRegions s ∧ s.kernel.regions 1 = some r ∧
      shmemRevoke 1 1 2 s.kernel = .ok (.ok (), k₁) ∧ Reaches k₁ 2 r.blocks := by
  obtain ⟨s, hrun, htest⟩ := exists_calls pc (fun _ => True) noRegions
    [.create 1 4096 .readWrite, .grant 1 1 2, .map 2 1 0x50000000]
    (fun s => (s.kernel.regions 1).any fun r => r.tasks.head? == some 1 &&
      ((s.kernel.halves (some 2)).frameAt ⟨false, 0x50000000⟩).any fun f =>
        r.blocks.contains (blockOf ⟨false, 0x50000000⟩ f)) (fun _ _ => trivial)
    (by decide +kernel)
  obtain ⟨r, hr, htest⟩ := (any_eq_true _ _).mp htest
  obtain ⟨hhead, hleaf⟩ := Bool.and_eq_true_iff.mp htest
  obtain ⟨f, hf, hblock⟩ := (any_eq_true _ _).mp hleaf
  exact ⟨s, r, _, hrun, hr, shmemRevoke_ok hr (by simpa using hhead), ⟨false, 0x50000000⟩, f, hf, _, by simpa using hblock,
    fun hap => hap f ⟨Block.has_addr (blockOf _ f), Block.has_addr (blockOf _ f)⟩⟩

end

end Folkering.Memory
