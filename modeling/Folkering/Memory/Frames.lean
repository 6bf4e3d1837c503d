/-
  What the memory calls need of the frame allocator.

  `FrameLaws` states it for any allocator: the blocks that are held are apart, an allocation adds one, and giving back a
  held block never fails.  The theorems about the calls rest on these laws only.  The kernel's own allocator has them
  (`pmmLaws`) on any machine whose usable regions are disjoint and touch only at multiples of the largest block.
-/
import Folkering.Memory.Kernel
import Folkering.Physical.Safety

namespace Folkering.Memory

open Physical (Block)
open Spans List

variable {α : Type}

/-- The laws, with `held` the blocks that the memory calls have obtained and not given back. -/
structure FrameLaws (A : FrameOps α) where
  Good : α → List Block → Prop
  packed : ∀ {a held}, Good a held → Packed (held.map Block.span)
  placed : ∀ {a held b}, Good a held → b ∈ held → Physical.blockSize b.order ∣ b.addr ∧ b.span.hi ≤ 2 ^ 52
  alloc_some : ∀ {a held order f a'}, order ≤ hugeOrder → Good a held → A.alloc a order = (some f, a') →
    Good a' (⟨f, order⟩ :: held)
  alloc_none : ∀ {a held order a'}, order ≤ hugeOrder → Good a held → A.alloc a order = (none, a') → Good a' held
  free_held : ∀ {a held} {b : Block}, b.order ≤ hugeOrder → Good a held → b ∈ held →
    ∃ a', A.free a b.addr b.order = .ok a' ∧ Good a' (held.erase b)

namespace FrameLaws

variable {A : FrameOps α} (L : FrameLaws A) {a a' : α} {held : List Block}

/-- The allocator is in order, whatever is held. -/
def Sound (a : α) : Prop := ∃ held, L.Good a held

/-- No block is held twice. -/
theorem nodup (h : L.Good a held) : held.Nodup := by
  refine (pairwise_map.mp (L.packed h)).imp fun {b c} hap hbc => ?_
  subst hbc
  exact hap b.addr ⟨b.has_addr, b.has_addr⟩

/-- Held blocks that share an address are the same. -/
theorem eq_of_meet (h : L.Good a held) {b c : Block} (hb : b ∈ held) (hc : c ∈ held) (hmeet : ¬ Apart b.span c.span) :
    b = c := by
  by_contra hne
  have : Std.Symm fun b c : Block => Apart b.span c.span := ⟨fun _ _ h => h.symm⟩
  exact hmeet ((pairwise_map.mp (L.packed h)).forall hb hc hne)

/-- A held frame is one: aligned and with an address of 52 bits. -/
theorem frame_lt (h : L.Good a held) {f : Nat} (hf : (⟨f, 0⟩ : Block) ∈ held) : f < 2 ^ 52 ∧ f % 4096 = 0 := by
  obtain ⟨hdvd, hend⟩ := L.placed h hf
  have hsize : Physical.blockSize 0 = 4096 := rfl
  simp only [Block.span, hsize] at hdvd hend
  exact ⟨by omega, Nat.mod_eq_zero_of_dvd hdvd⟩

/-- Taking frames for tables keeps those that are held. -/
theorem draws (h : L.Good a held) (hd : Draws A a a') : ∃ held', L.Good a' held' ∧ held ⊆ held' := by
  induction hd with
  | refl => exact ⟨held, h, List.Subset.refl _⟩
  | @tail b c _ hstep ih =>
    obtain ⟨held₁, hgood₁, hsub⟩ := ih
    subst hstep
    cases halloc : A.alloc b 0 with
    | mk f b' =>
      cases f with
      | none => exact ⟨held₁, L.alloc_none (Nat.zero_le _) hgood₁ halloc, hsub⟩
      | some f =>
        exact ⟨_, L.alloc_some (Nat.zero_le _) hgood₁ halloc, fun x hx => mem_cons_of_mem _ (hsub hx)⟩

end FrameLaws

/-! ## The kernel's own allocator -/

open Physical

/-- A machine on which the physical allocator is safe. -/
structure Machine (hhdm : Nat) (regions : List Span) : Prop where
  hhdm_lt : hhdm < 2 ^ 64
  physical : ∀ r ∈ regions, r.hi ≤ 2 ^ 52
  apart : Packed regions
  touch : TouchAtMaxBlocks regions

/-- Regions end inside the machine word. -/
theorem Machine.word {hhdm : Nat} {regions : List Span} (m : Machine hhdm regions) : ∀ r ∈ regions, r.hi < 2 ^ 64 :=
  fun r hr => Nat.lt_of_le_of_lt (m.physical r hr) (by decide)

/-- On such a machine the arenas have room to round their cursors up. -/
theorem Machine.rounds {hhdm order : Nat} {regions : List Span} (m : Machine hhdm regions) {s : Sys}
    (h : Inv hhdm regions s) (ho : order ≤ hugeOrder) : RoundsWithinWord s.pmm order := by
  obtain ⟨rs, hrs, har, -⟩ := h.owns
  have hsize : Physical.blockSize order ≤ 2 ^ 21 := by
    rw [blockSize_eq_pow]
    exact Nat.pow_le_pow_right (by decide) (Nat.add_le_add_left ho 12)
  refine ⟨Nat.le_trans ho (by decide), fun r hr => ?_⟩
  rw [hrs] at hr
  obtain ⟨-, -, g, hg, -, hle, hend⟩ := har r hr
  have := m.physical g hg
  omega

/-- The allocation of the calls, as the physical allocator sees it. -/
theorem Machine.handsOut {hhdm order : Nat} {regions : List Span} (m : Machine hhdm regions) {p : Pmm} {held : List Block}
    (h : Inv hhdm regions ⟨p, held⟩) (ho : order ≤ hugeOrder) :
    Inv hhdm regions (Sys.hold held order ((pmmFrames hhdm).alloc p order)) := by
  unfold pmmFrames
  simp only
  split
  · next hzero =>
    subst hzero
    exact (handsOut_allocPage m.hhdm_lt m.word h).inv h.placed
  · exact (handsOut_allocPages order m.hhdm_lt m.word h fun _ => m.rounds h ho).inv h.placed

/-- The physical allocator has the laws. -/
def pmmLaws {hhdm : Nat} {regions : List Span} (m : Machine hhdm regions) : FrameLaws (pmmFrames hhdm) where
  Good p held := Inv hhdm regions ⟨p, held⟩
  packed h := (h.safe m.word).heldApart
  placed h hb := by
    obtain ⟨hdvd, r, hr, hw⟩ := h.placed _ hb
    exact ⟨hdvd, hw.2.trans (m.physical r hr)⟩
  alloc_some ho h halloc := by
    have hafter := m.handsOut h ho
    rwa [halloc] at hafter
  alloc_none ho h halloc := by
    have hafter := m.handsOut h ho
    rwa [halloc] at hafter
  free_held {p held b} ho h hb := by
    obtain ⟨rs, hrs, har, fl, hl, hp⟩ := h.owns
    have hperm := (perm_cons_erase hb).map Block.span
    obtain ⟨a, ha, hown⟩ := Owns.freePages m.word m.apart m.touch (maxOrder + 1) _ b.addr b.order _
      (Nat.le_trans ho (by decide)) (by omega) (h.placed b hb)
      ⟨fl, hl, hp.perm ((hperm.append_right _).append_left _)⟩
    refine ⟨{ p with allocator := a }, ?_, fun c hc => h.placed c (mem_of_mem_erase hc), rs, hrs, har, hown⟩
    show (p.allocator.freePagesAt hhdm (maxOrder + 1) b.addr b.order >>= fun s => .ok { p with allocator := s }) = _
    rw [ha]
    rfl

/-- The memory map of `smallMachine`: one megabyte. -/
theorem goodMap_small : GoodMap [⟨true, 0x100000, 0x100000⟩] := by
  refine ⟨fun e he _ => ?_, by simp [Packed]⟩
  rw [List.mem_singleton.mp he]
  exact ⟨by decide, by decide, by decide⟩

/-- `smallMachine` is such a machine. -/
theorem machine_small : Machine hhdmOffset (registered [⟨true, 0x100000, 0x100000⟩]) where
  hhdm_lt := by decide
  physical := by decide
  apart := (registered_good goodMap_small).2.1
  touch := by
    unfold TouchAtMaxBlocks
    decide

/-- The laws for `smallMachine`. -/
def smallLaws : FrameLaws (pmmFrames hhdmOffset) := pmmLaws machine_small

/-- Nothing is held at first. -/
theorem smallLaws_good : smallLaws.Good smallMachine.frames [] := inv_boot goodMap_small _

/-- The platform of the examples: the kernel's allocator and the walk of `pcPlatform`. -/
def pc : Platform Pmm := pcPlatform (pmmFrames hhdmOffset)

/-- It has the laws. -/
theorem pc_laws : PlatformLaws pc := pcPlatform_laws _

end Folkering.Memory
