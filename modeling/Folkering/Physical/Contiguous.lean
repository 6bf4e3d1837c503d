/-
  `alloc_contiguous(n)` and the `n` pages it is asked for (kernel/src/memory/physical.rs).

  The request is rounded up to a block of `2^order` pages and the search for the order stops at 10, so a caller who
  asks for more than 1024 pages gets a block of 1024.  What a call does to the free pages is said once for each of
  the two places a block can come from:
    * `free_of_buddy` — the lists lose the bytes of the block and nothing else;
    * `free_of_carved` — an arena loses the bytes of the block and those it skipped to align it.
  `allocContiguous_taken_iff` is the result: the call takes the pages asked for exactly when there are at most 1024.
-/
import Folkering.Physical.Safety

namespace Folkering.Physical

open Chain Word64 Spans List

/-! ## The order -/

/-- The search ends at the least order that covers the request, or at ten. -/
theorem contiguousOrder_spec : ∀ (fuel numPages order : Nat), order + fuel = 10 →
    contiguousOrder numPages fuel order ≤ 10 ∧
      (numPages ≤ 2 ^ contiguousOrder numPages fuel order ∨
        2 ^ 10 < numPages ∧ contiguousOrder numPages fuel order = 10)
  | 0, numPages, order, h => by
    have ho : order = 10 := h
    subst ho
    refine ⟨Nat.le_refl _, ?_⟩
    rcases Nat.lt_or_ge (2 ^ 10) numPages with hlt | hge
    · exact .inr ⟨hlt, rfl⟩
    · exact .inl hge
  | fuel + 1, numPages, order, h => by
    unfold contiguousOrder
    by_cases hc : 2 ^ order < numPages ∧ order < 10
    · rw [if_pos hc]
      exact contiguousOrder_spec fuel numPages (order + 1) (by omega)
    · rw [if_neg hc]
      exact ⟨by omega, .inl (by omega)⟩

/-! ## The free pages -/

/-- A page of a block on a list. -/
def ListedPage (hhdm : Nat) (a : BuddyAllocator) (f : Nat) : Prop :=
  ∃ o ≤ maxOrder, ∃ l : List Nat, Linked a.mem (a.freeLists o) (l.map (physToVirt hhdm)) ∧
    (∀ addr ∈ l, addr < 2 ^ 64) ∧ ∃ addr ∈ l, (Block.span ⟨addr, o⟩).Has f

/-- A page the allocator still has: on a list or ahead of an arena's cursor. -/
def FreePage (hhdm : Nat) (p : Pmm) (f : Nat) : Prop :=
  pageSize ∣ f ∧ (ListedPage hhdm p.allocator f ∨ ∃ rs, p.bootstrap = some rs ∧ ∃ r ∈ rs, r.tail.Has f)

section

variable {hhdm : Nat} {regions : List Span} {p p' : Pmm}

/-- What is on the lists, by the list of blocks that they stand for. -/
theorem listedPage_iff {a : BuddyAllocator} {fl : Nat → List Nat} {f : Nat} (hr : ∀ r ∈ regions, r.hi < 2 ^ 64)
    (hl : Lists hhdm regions a fl) : ListedPage hhdm a f ↔ ∃ s ∈ freeSpans fl, s.Has f := by
  have hword : ∀ o ≤ maxOrder, ∀ addr ∈ fl o, addr < 2 ^ 64 := fun o ho addr ha =>
    (hl.placed o ho addr ha).addr_lt hr
  constructor
  · rintro ⟨o, ho, l, hlink, hlt, addr, haddr, hf⟩
    have hhop := hlink.mem_iff_hop.mp (mem_map_of_mem haddr)
    obtain ⟨addr', hmem, he⟩ := mem_map.mp ((hl.linked o ho).mem_iff_hop.mpr hhop)
    have : addr' = addr := virt_inj (hword o ho addr' hmem) (hlt addr haddr) he
    subst this
    exact ⟨_, mem_flat.mpr ⟨o, by omega, addr', hmem, rfl⟩, hf⟩
  · rintro ⟨s, hs, hf⟩
    obtain ⟨o, ho, addr, haddr, rfl⟩ := mem_flat.mp hs
    exact ⟨o, by omega, fl o, hl.linked o (by omega), hword o (by omega), addr, haddr, hf⟩

/-! ## What a call takes -/

/-- The pages `[base, base + n pages)` were the allocator's, are not any more, and lie in one region. -/
structure Taken (hhdm : Nat) (regions : List Span) (p : Pmm) (base n : Nat) (p' : Pmm) : Prop where
  before : ∀ k < n, FreePage hhdm p (base + k * pageSize)
  after : ∀ k < n, ¬ FreePage hhdm p' (base + k * pageSize)
  within : ∃ r ∈ regions, (⟨base, base + n * pageSize⟩ : Span).Within r

/-- The free pages, by the blocks the lists stand for and the arenas' tails. -/
theorem freePage_iff_spans {fl : Nat → List Nat} {rs : List BootstrapRegion} {f : Nat}
    (hr : ∀ r ∈ regions, r.hi < 2 ^ 64) (hl : Lists hhdm regions p.allocator fl) (hrs : p.bootstrap = some rs) :
    FreePage hhdm p f ↔ pageSize ∣ f ∧ ((∃ s ∈ freeSpans fl, s.Has f) ∨ ∃ r ∈ rs, r.tail.Has f) := by
  simp only [FreePage, listedPage_iff hr hl, hrs, Option.some.injEq, exists_eq_left']

/-- What a buddy allocation does to the lists, byte by byte: with a block, its bytes leave; without one, none do. -/
theorem free_of_buddy {a a' : BuddyAllocator} {fl : Nat → List Nat} {order : Nat} {res : Option Nat}
    (hh : hhdm < 2 ^ 64) (hr : ∀ r ∈ regions, r.hi < 2 ^ 64) (hdm : DirectMapped hhdm regions)
    (hl : Lists hhdm regions a fl) (hp : Packed (freeSpans fl))
    (hres : a.allocPages hhdm (maxOrder + 1) order = (res, a')) :
    ∃ fl', Lists hhdm regions a' fl' ∧ ∀ x, (∃ s ∈ freeSpans fl, s.Has x) ↔
      (∃ s ∈ freeSpans fl', s.Has x) ∨ ∃ addr, res = some addr ∧ (Block.span ⟨addr, order⟩).Has x := by
  have hown : Tiling (fun x => ∃ s ∈ freeSpans fl, s.Has x) (freeSpans fl ++ []) := by
    rw [append_nil]
    exact ⟨hp, fun x => Iff.rfl⟩
  have hafter := hl.allocPages (Arrangement.of_tiling _) (Or.inl hdm) hh hr hown (maxOrder + 1) order
  rw [hres] at hafter
  cases res with
  | none =>
    obtain ⟨fl', hl', ⟨-, hcov⟩, -⟩ := hafter
    refine ⟨fl', hl', fun x => ?_⟩
    refine (hcov x).symm.trans ?_
    rw [append_nil]
    simp
  | some addr =>
    obtain ⟨-, fl', hl', ⟨-, hcov⟩, -⟩ := hafter
    refine ⟨fl', hl', fun x => ?_⟩
    refine (hcov x).symm.trans ?_
    simp only [mem_append, mem_singleton, or_and_right, exists_or, exists_eq_left, Option.some.injEq,
      exists_eq_left']

/-- What a carved block does to the arenas: a byte of the block was ahead of a cursor, and a byte behind the block
    stays ahead of one. -/
theorem free_of_carved {rs rs' : List BootstrapRegion} {start len x : Nat} (h : Carved rs start len rs') :
    (start ≤ x → x < start + len → ∃ r ∈ rs, r.tail.Has x) ∧
      ((∃ r ∈ rs, r.tail.Has x) → start + len ≤ x → ∃ r ∈ rs', r.tail.Has x) := by
  obtain ⟨pre, r, post, rfl, rfl, h1, h2⟩ := h
  constructor
  · intro hlo hhi
    exact ⟨r, by simp, h1.trans hlo, Nat.lt_of_lt_of_le hhi h2⟩
  · rintro ⟨q, hq, hx⟩ hbeyond
    rcases mem_append.mp hq with hq | hq
    · exact ⟨q, mem_append_left _ hq, hx⟩
    rcases mem_cons.mp hq with rfl | hq
    · exact ⟨_, mem_append_right _ mem_cons_self, hbeyond, hx.2⟩
    · exact ⟨q, mem_append_right _ (mem_cons_of_mem _ hq), hx⟩

/-- **What `alloc_pages` does to the free pages**: the pages of the block were free, and a free page right behind
    the block or further up stays free. -/
theorem allocPages_free {s : Sys} {order base : Nat} (hh : hhdm < 2 ^ 64) (hr : ∀ r ∈ regions, r.hi < 2 ^ 64)
    (hdm : DirectMapped hhdm regions) (h : Inv hhdm regions s) (hw : RoundsWithinWord s.pmm order)
    (hres : s.pmm.allocPages hhdm order = (some base, p')) (f : Nat) (hf : pageSize ∣ f) :
    ((Block.span ⟨base, order⟩).Has f → FreePage hhdm s.pmm f) ∧
      (FreePage hhdm s.pmm f → base + blockSize order ≤ f → FreePage hhdm p' f) := by
  obtain ⟨rs, hrs, har, fl, hl, hpk⟩ := h.owns
  have hpf : Packed (freeSpans fl) := hpk.sublist (sublist_append_left _ _)
  rw [freePage_iff_spans hr hl hrs]
  unfold Pmm.allocPages at hres
  cases hbuddy : s.pmm.allocator.allocPages hhdm (maxOrder + 1) order with
  | mk res a =>
    obtain ⟨fl', hl', hfree⟩ := free_of_buddy hh hr hdm hl hpf hbuddy
    rw [hbuddy] at hres
    cases res with
    | some addr =>
      -- a block from the lists
      cases hres
      rw [@freePage_iff_spans hhdm regions { s.pmm with allocator := a } _ _ _ hr hl' hrs, hfree f]
      refine ⟨fun hx => ⟨hf, .inl (.inr ⟨base, rfl, hx⟩)⟩, ?_⟩
      rintro ⟨-, (hx | ⟨addr, haddr, hx⟩) | hx⟩ hbeyond
      · exact ⟨hf, .inl hx⟩
      · cases haddr
        exact absurd hx.2 (Nat.not_lt.mpr hbeyond)
      · exact ⟨hf, .inr hx⟩
    | none =>
      -- a block from an arena
      simp only [hrs, Option.bind_some] at hres
      split at hres
      · cases hblk : allocBlock order rs with
        | none =>
          rw [hblk] at hres
          cases hres
        | some blk =>
          obtain ⟨start, rs'⟩ := blk
          rw [hblk] at hres
          cases hres
          have hfit := hw.2
          rw [hrs] at hfit
          obtain ⟨-, hc⟩ := allocBlock_carved hw.1 hfit hblk
          obtain ⟨hin, hbehind⟩ := free_of_carved (x := f) hc
          refine ⟨fun hx => ⟨hf, .inr (hin hx.1 hx.2)⟩, ?_⟩
          rintro ⟨-, hx | hx⟩ hbeyond
          · rw [hfree f] at hx
            refine (freePage_iff_spans hr hl' rfl).mpr ⟨hf, .inl ?_⟩
            rcases hx with hx | ⟨_, hnone, -⟩
            · exact hx
            · cases hnone
          · exact (freePage_iff_spans hr hl' rfl).mpr ⟨hf, .inr (hbehind hx hbeyond)⟩
      · cases hres

theorem not_free_of_handsOut {held : List Block} {order base f : Nat} (hr : ∀ r ∈ regions, r.hi < 2 ^ 64)
    (h : HandsOut hhdm regions held order (some base, p')) (hx : (Block.span ⟨base, order⟩).Has f) :
    ¬ FreePage hhdm p' f := by
  obtain ⟨-, rs, hrs, -, fl, hl, hpk⟩ := h
  rw [cons_append, packed_middle, packed_cons] at hpk
  rw [freePage_iff_spans hr hl hrs]
  rintro ⟨-, ⟨t, ht, hxt⟩ | ⟨r, hr, hxr⟩⟩
  · exact hpk.1 t (mem_append_left _ ht) f ⟨hx, hxt⟩
  · exact hpk.1 _ (mem_append_right _ (mem_append_right _ (mem_map_of_mem hr))) f ⟨hx, hxr⟩

theorem block_has_page {base order k : Nat} (hk : k < 2 ^ order) :
    (Block.span ⟨base, order⟩).Has (base + k * pageSize) := by
  have hmul : k * pageSize < 2 ^ order * pageSize := Nat.mul_lt_mul_of_pos_right hk (by decide)
  simp only [Span.Has, Block.span, blockSize]
  rw [Nat.mul_comm pageSize]
  omega

end

/-- **`alloc_contiguous(n)` takes the `n` pages it is asked for exactly when `n` is at most 1024**, in every state
    reached by disciplined callers. -/
theorem allocContiguous_taken_iff {hhdm : Nat} {map : List MemoryMapEntry} {s : Sys} {n base : Nat} {p' : Pmm}
    (hh : hhdm < 2 ^ 64) (hg : GoodMap map) (ht : TouchAtMaxBlocks (registered map))
    (hdm : DirectMapped hhdm (registered map)) (h : Reach hhdm map s) (hf : CallFits s (.allocContiguous n))
    (hres : s.pmm.allocContiguous hhdm n = (some base, p')) :
    Taken hhdm (registered map) s.pmm base n p' ↔ n ≤ 1024 := by
  have hr := (registered_good hg).1
  have hinv := reach_inv hh hg ht h
  unfold Pmm.allocContiguous at hres
  split at hres
  · cases hres
  have hfree := fun f hf' => allocPages_free hh hr hdm hinv hf hres f hf'
  have hout := handsOut_allocPages (contiguousOrder n 10 0) hh hr hinv fun _ => hf
  rw [hres] at hout
  obtain ⟨hdvd, r, hrm, hw⟩ := hout.1
  have hpage : ∀ k, pageSize ∣ base + k * pageSize := fun k =>
    (Nat.dvd_add_right ((pageSize_dvd_blockSize _).trans hdvd)).mpr (Nat.dvd_mul_left _ _)
  obtain ⟨-, hcover | ⟨hlarge, horder⟩⟩ := contiguousOrder_spec 10 n 0 rfl
  · -- the block covers the request
    have hhas := fun k (hk : k < n) => @block_has_page base _ k (Nat.lt_of_lt_of_le hk hcover)
    have hsize : n * pageSize ≤ blockSize (contiguousOrder n 10 0) := by
      rw [blockSize, Nat.mul_comm]
      exact Nat.mul_le_mul_left _ hcover
    have hle : n ≤ 1024 := hcover.trans (Nat.pow_le_pow_right (by omega) (contiguousOrder_spec 10 n 0 rfl).1)
    refine ⟨fun _ => hle, fun _ => ⟨fun k hk => (hfree _ (hpage k)).1 (hhas k hk),
      fun k hk => not_free_of_handsOut hr hout (hhas k hk), r, hrm, hw.1, ?_⟩⟩
    exact (Nat.add_le_add_left hsize base).trans hw.2
  · -- the page behind the block was free and is still, or was not free
    have hlarge' : 1024 < n := hlarge
    refine ⟨fun htaken => ?_, fun hle => absurd hle (by omega)⟩
    have hend : base + blockSize (contiguousOrder n 10 0) = base + 1024 * pageSize := by
      rw [horder]
      rfl
    exact absurd ((hfree _ (hpage 1024)).2 (htaken.before 1024 hlarge') hend.le) (htaken.after 1024 hlarge')

/-- An 8 MiB machine whose regions the direct map reaches. -/
theorem goodMap_eight : GoodMap [⟨true, 0x400000, 0x800000⟩] := by
  refine ⟨fun e he _ => ?_, by simp [Packed]⟩
  rw [mem_singleton.mp he]
  exact ⟨by decide, by decide, by decide⟩

/-- Three pages are rounded to four, of which the caller gets all it asked for. -/
theorem allocContiguous_three_pages :
    ∃ p', (init [⟨true, 0x400000, 0x800000⟩] fun _ => none).allocContiguous 0xFFFF800000000000 3 =
        (some 0x400000, p') ∧
      Taken 0xFFFF800000000000 (registered [⟨true, 0x400000, 0x800000⟩])
        (init [⟨true, 0x400000, 0x800000⟩] fun _ => none) 0x400000 3 p' := by
  refine ⟨_, rfl, (allocContiguous_taken_iff (s := boot [⟨true, 0x400000, 0x800000⟩] fun _ => none) (by decide)
    goodMap_eight ?_ (directMapped_of_room (by decide) (by decide)) (.boot _) ?_ rfl).mpr (by decide)⟩
  · unfold TouchAtMaxBlocks
    decide
  · exact ⟨by decide, by decide⟩

/-- 1025 pages are asked for and 1024 are taken: the last page the caller will use is still the allocator's. -/
theorem allocContiguous_overflow :
    ∃ p', (init [⟨true, 0x400000, 0x800000⟩] fun _ => none).allocContiguous 0xFFFF800000000000 1025 =
        (some 0x400000, p') ∧ FreePage 0xFFFF800000000000 p' (0x400000 + 1024 * pageSize) ∧
      ¬ Taken 0xFFFF800000000000 (registered [⟨true, 0x400000, 0x800000⟩])
        (init [⟨true, 0x400000, 0x800000⟩] fun _ => none) 0x400000 1025 p' := by
  obtain ⟨p', hp', hrs⟩ : ∃ p', (init [⟨true, 0x400000, 0x800000⟩] fun _ => none).allocContiguous
      0xFFFF800000000000 1025 = (some 0x400000, p') ∧ p'.bootstrap = some [⟨0x800000, 0xC00000⟩] := ⟨_, rfl, rfl⟩
  have hfree : FreePage 0xFFFF800000000000 p' (0x400000 + 1024 * pageSize) :=
    ⟨by decide, .inr ⟨_, hrs, _, mem_singleton.mpr rfl, by decide, by decide⟩⟩
  exact ⟨p', hp', hfree, fun h => h.after 1024 (by decide) hfree⟩

end Folkering.Physical
