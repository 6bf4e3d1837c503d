/-
  Safety of the allocator over whole runs.

  The system invariant `Inv` puts the pieces together: what callers hold, what the bump arenas have
  not handed out and what the buddy lists list are ONE packing of the registered regions.
    * at boot only the arenas own anything (`inv_boot`): the regions, which is where the memory map's
      promises are used;
    * a bump allocation carves a block off the front of one arena (`Owns.carve`);
    * a buddy call moves a span between the lists and the callers (`Owns.allocPages`,
      `Owns.freePages`);
    * a client's write hits only memory that is on no list (`Lists.clientWrite`).
  `reach_safe` is the result: every state a disciplined run reaches is `Safe`.
-/
import Folkering.Physical.Buddy

namespace Folkering.Physical

open Chain Word64 Spans List

/-! ## The bump arenas -/

/-- Arenas stay page aligned and inside the regions they were registered for, and no cursor passes its end. -/
def Arenas (regions : List Span) (rs : List BootstrapRegion) : Prop :=
  ∀ r ∈ rs, pageSize ∣ r.nextPage ∧ pageSize ∣ r.endPage ∧
    ∃ g ∈ regions, g.lo ≤ r.nextPage ∧ r.nextPage ≤ r.endPage ∧ r.endPage ≤ g.hi

/-- One arena gave `[start, start + len)` and moved its cursor behind it. -/
def Carved (rs : List BootstrapRegion) (start len : Nat) (rs' : List BootstrapRegion) : Prop :=
  ∃ pre r post, rs = pre ++ r :: post ∧ rs' = pre ++ { r with nextPage := start + len } :: post ∧
    r.nextPage ≤ start ∧ start + len ≤ r.endPage

variable {rs rs' : List BootstrapRegion}

theorem Carved.cons {start len : Nat} (h : Carved rs start len rs')
    (r : BootstrapRegion) : Carved (r :: rs) start len (r :: rs') := by
  obtain ⟨pre, q, post, rfl, rfl, h1, h2⟩ := h
  exact ⟨r :: pre, q, post, rfl, rfl, h1, h2⟩

/-- An arena that gave exactly at its cursor, so that it skipped nothing. -/
def CarvedFront (rs : List BootstrapRegion) (start len : Nat) (rs' : List BootstrapRegion) : Prop :=
  ∃ pre r post, rs = pre ++ r :: post ∧ rs' = pre ++ { r with nextPage := start + len } :: post ∧
    r.nextPage = start ∧ start + len ≤ r.endPage

theorem CarvedFront.carved {start len : Nat} (h : CarvedFront rs start len rs') : Carved rs start len rs' := by
  obtain ⟨pre, r, post, hrs, hrs', hstart, hend⟩ := h
  exact ⟨pre, r, post, hrs, hrs', hstart.le, hend⟩

theorem bootstrapAllocPage_carved {regions : List Span} :
    ∀ {rs rs' : List BootstrapRegion} {page : Nat}, Arenas regions rs →
      (∀ g ∈ regions, g.hi < 2 ^ 64) → bootstrapAllocPage rs = some (page, rs') →
      pageSize ∣ page ∧ CarvedFront rs page pageSize rs'
  | [], _, _, _, _, h => by cases h
  | r :: rs, rs', page, ha, hg, h => by
    unfold bootstrapAllocPage at h
    by_cases hlt : r.nextPage < r.endPage
    · obtain ⟨⟨k, hk⟩, ⟨m, hm⟩, g, hgm, hlo, hhi⟩ := ha r mem_cons_self
      have hg' := hg g hgm
      have hfit : r.nextPage + pageSize ≤ r.endPage := by
        unfold pageSize at *
        omega
      rw [if_pos hlt] at h
      simp only [Option.some.injEq, Prod.mk.injEq] at h
      obtain ⟨rfl, rfl⟩ := h
      have hw : wadd r.nextPage pageSize = r.nextPage + pageSize := by
        unfold wadd pageSize at *
        omega
      rw [hw]
      exact ⟨⟨k, hk⟩, [], r, rs, rfl, rfl, rfl, hfit⟩
    · rw [if_neg hlt] at h
      obtain ⟨⟨page', rs''⟩, hrec, heq⟩ := Option.map_eq_some_iff.mp h
      simp only [Prod.mk.injEq] at heq
      obtain ⟨rfl, rfl⟩ := heq
      obtain ⟨hd, pre, q, post, rfl, rfl, hc⟩ := bootstrapAllocPage_carved
        (fun q hq => ha q (mem_cons_of_mem _ hq)) hg hrec
      exact ⟨hd, r :: pre, q, post, rfl, rfl, hc⟩

variable {order : Nat}

/-- The block size of an order that is not shifted out of the word. -/
theorem wshl_pageSize (h : order ≤ 51) : wshl pageSize order = blockSize order := by
  have hlt : blockSize order < 2 ^ 64 := by
    rw [blockSize_eq_pow]
    exact Nat.pow_lt_pow_right (by omega) (by omega)
  exact wshl_eq (by omega) hlt

/-- Rounding that stays in the word. -/
theorem alignedStart_eq {r : BootstrapRegion} (ho : order ≤ 51) (hw : r.nextPage + blockSize order ≤ 2 ^ 64) :
    alignedStart r order = (r.nextPage + blockSize order - 1) / blockSize order * blockSize order := by
  simp only [alignedStart, wshl_pageSize ho]
  rw [blockSize_eq_pow] at hw ⊢
  have hlt : 2 ^ (12 + order) < 2 ^ 64 := Nat.pow_lt_pow_right (by omega) (by omega)
  rw [wsub_eq hlt (Nat.two_pow_pos _), round_up (by omega) hw]

/-- It rounds UP, to a multiple of the block size. -/
theorem alignedStart_spec {r : BootstrapRegion} (ho : order ≤ 51) (hw : r.nextPage + blockSize order ≤ 2 ^ 64) :
    r.nextPage ≤ alignedStart r order ∧ blockSize order ∣ alignedStart r order := by
  rw [alignedStart_eq ho hw]
  refine ⟨?_, Nat.dvd_mul_left _ _⟩
  have hdiv := Nat.div_add_mod (r.nextPage + blockSize order - 1) (blockSize order)
  have hmod := Nat.mod_lt (r.nextPage + blockSize order - 1) (blockSize_pos order)
  rw [Nat.mul_comm] at hdiv
  omega

theorem allocBlock_carved (ho : order ≤ 51) : ∀ {rs rs' : List BootstrapRegion} {start : Nat},
      (∀ r ∈ rs, r.nextPage + blockSize order ≤ 2 ^ 64) → allocBlock order rs = some (start, rs') →
      blockSize order ∣ start ∧ Carved rs start (blockSize order) rs'
  | [], _, _, _, h => by cases h
  | r :: rs, rs', start, hw, h => by
    simp only [allocBlock, wshl_pageSize ho] at h
    obtain ⟨hle, hdvd⟩ := alignedStart_spec ho (hw r mem_cons_self)
    split at h
    · next hfit =>
      simp only [Option.some.injEq, Prod.mk.injEq] at h
      obtain ⟨rfl, rfl⟩ := h
      exact ⟨hdvd, [], r, rs, rfl, rfl, hle, hfit.2⟩
    · obtain ⟨⟨start', rs''⟩, hrec, heq⟩ := Option.map_eq_some_iff.mp h
      simp only [Prod.mk.injEq] at heq
      obtain ⟨rfl, rfl⟩ := heq
      obtain ⟨hd, hc⟩ := allocBlock_carved ho (fun q hq => hw q (mem_cons_of_mem _ hq)) hrec
      exact ⟨hd, hc.cons r⟩

theorem pageSize_dvd_blockSize (order : Nat) : pageSize ∣ blockSize order := Nat.dvd_mul_right _ _

/-- A carved block is inside the arena's region, and the arenas stay as they should. -/
theorem Carved.arenas {regions : List Span} {start order : Nat}
    (h : Carved rs start (blockSize order) rs') (ha : Arenas regions rs)
    (hd : blockSize order ∣ start) : Placed regions ⟨start, order⟩ ∧ Arenas regions rs' := by
  obtain ⟨pre, r, post, rfl, rfl, h1, h2⟩ := h
  obtain ⟨-, hend, g, hg, hlo, -, hhi⟩ := ha r (by simp)
  refine ⟨⟨hd, g, hg, by simp only [Block.span]; omega, by simp only [Block.span]; omega⟩, ?_⟩
  intro q hq
  rcases mem_append.mp hq with hq | hq
  · exact ha q (mem_append_left _ hq)
  rcases mem_cons.mp hq with rfl | hq
  · have hp := pageSize_dvd_blockSize order
    exact ⟨(Nat.dvd_add_right (hp.trans hd)).mpr hp, hend, g, hg, by simp only; omega, h2, hhi⟩
  · exact ha q (by simp [hq])

section

variable {hhdm : Nat} {regions : List Span}

/-- **Carving**: the block's span moves from the arena to the callers. -/
theorem Owns.carve {s : BuddyAllocator} {held : List Span}
    {start order : Nat} (h : Owns hhdm regions s (held ++ rs.map BootstrapRegion.tail))
    (hc : Carved rs start (blockSize order) rs') :
    Owns hhdm regions s (Block.span ⟨start, order⟩ :: held ++ rs'.map BootstrapRegion.tail) := by
  obtain ⟨pre, r, post, rfl, rfl, h1, h2⟩ := hc
  obtain ⟨fl, hl, hp⟩ := h
  refine ⟨fl, hl, ?_⟩
  -- bring the arena's tail to the front, shrink it, cut it, and put the two pieces back
  have hfront : Packed (r.tail :: (freeSpans fl ++ held ++ pre.map BootstrapRegion.tail ++
      post.map BootstrapRegion.tail)) := by
    refine hp.perm ?_
    simp only [perm_iff_count, map_append, map_cons, count_append,
      count_cons]
    intro x
    omega
  have hsub : ∀ x, Span.Has ⟨start, r.endPage⟩ x → r.tail.Has x := fun x hx => by
    simp only [Span.Has, BootstrapRegion.tail] at hx ⊢
    omega
  have hcut := (hfront.shrink hsub).split (m := start + blockSize order) (by omega) h2
  refine hcut.perm ?_
  simp only [perm_iff_count, map_append, map_cons, count_append,
    count_cons, cons_append, Block.span, BootstrapRegion.tail]
  intro x
  omega

/-- **A client's write** into memory the rest owns leaves the lists as they are. -/
theorem Lists.clientWrite {s : BuddyAllocator} {fl : Nat → List Nat} {rest : List Span} {x : Nat} {sp : Span}
    {word : Option Nat} (hr : ∀ r ∈ regions, r.hi < 2 ^ 64) (hl : Lists hhdm regions s fl)
    (hp : Packed (freeSpans fl ++ rest)) (hsp : sp ∈ rest) (hx : sp.Has x) (hlt : x < 2 ^ 64) :
    Lists hhdm regions { s with mem := Function.update s.mem (physToVirt hhdm x) word } fl := by
  refine ⟨fun o hle => ?_, hl.placed⟩
  refine (hl.linked o hle).update_of_notMem fun hmem => ?_
  obtain ⟨a, ha, he⟩ := mem_map.mp hmem
  have hax : a = x := virt_inj ((hl.placed o hle a ha).addr_lt hr) hlt he
  subst hax
  have hap := (pairwise_append.mp hp).2.2 _
    (mem_flat.mpr ⟨o, by omega, a, ha, rfl⟩) sp hsp
  exact hap a ⟨Block.has_addr ⟨a, o⟩, hx⟩

end

/-! ## The system invariant -/

/-- Callers, arenas and lists are one packing of the regions. -/
structure Inv (hhdm : Nat) (regions : List Span) (s : Sys) : Prop where
  placed : ∀ b ∈ s.held, Placed regions b
  owns : ∃ rs, s.pmm.bootstrap = some rs ∧ Arenas regions rs ∧
    Owns hhdm regions s.pmm.allocator (s.held.map Block.span ++ rs.map BootstrapRegion.tail)

variable {s : Sys}

/-- The invariant is at least as strong as safety. -/
theorem Inv.safe {hhdm : Nat} {regions : List Span} (h : Inv hhdm regions s)
    (hr : ∀ r ∈ regions, r.hi < 2 ^ 64) : Safe hhdm regions s := by
  obtain ⟨rs, -, -, fl, hl, hp⟩ := h.owns
  have hsplit := pairwise_append.mp hp
  refine ⟨(pairwise_append.mp hsplit.2.1).1, h.placed, fun o hle => ?_⟩
  refine ⟨fl o, hl.linked o hle, fun addr ha => ⟨(hl.placed o hle addr ha).addr_lt hr, ?_⟩⟩
  intro b hb
  exact (hsplit.2.2 _ (mem_flat.mpr ⟨o, by omega, addr, ha, rfl⟩) _
    (mem_append_left _ (mem_map_of_mem hb))).symm

/-! ## One call preserves the invariant -/

section

variable {hhdm : Nat} {regions : List Span}

/-- An allocation that returned `addr` (or nothing), as the callers see it. -/
def HandsOut (hhdm : Nat) (regions : List Span) (held : List Block) (order : Nat) :
    Option Nat × Pmm → Prop
  | (some addr, p) => Placed regions ⟨addr, order⟩ ∧
      ∃ rs, p.bootstrap = some rs ∧ Arenas regions rs ∧ Owns hhdm regions p.allocator
        (Block.span ⟨addr, order⟩ :: held.map Block.span ++ rs.map BootstrapRegion.tail)
  | (none, p) => ∃ rs, p.bootstrap = some rs ∧ Arenas regions rs ∧
      Owns hhdm regions p.allocator (held.map Block.span ++ rs.map BootstrapRegion.tail)

theorem HandsOut.inv {held : List Block} {r : Option Nat × Pmm}
    (hpl : ∀ b ∈ held, Placed regions b) (h : HandsOut hhdm regions held order r) :
    Inv hhdm regions (Sys.hold held order r) := by
  obtain ⟨_ | addr, p⟩ := r
  · exact ⟨hpl, h⟩
  · refine ⟨fun b hb => ?_, h.2⟩
    rcases mem_cons.mp hb with rfl | hb
    · exact h.1
    · exact hpl b hb

theorem handsOut_allocPages (order : Nat) (hh : hhdm < 2 ^ 64)
    (hr : ∀ r ∈ regions, r.hi < 2 ^ 64) (h : Inv hhdm regions s) (hw : 0 < order → RoundsWithinWord s.pmm order) :
    HandsOut hhdm regions s.held order (s.pmm.allocPages hhdm order) := by
  obtain ⟨rs, hrs, har, hown⟩ := h.owns
  have hbuddy := Owns.allocPages hh hr (maxOrder + 1) _ order _ hown
  unfold Pmm.allocPages
  cases hres : s.pmm.allocator.allocPages hhdm (maxOrder + 1) order with
  | mk r a =>
    rw [hres] at hbuddy
    cases r with
    | some addr => exact ⟨hbuddy.1, rs, hrs, har, hbuddy.2⟩
    | none =>
      -- the lists had no block of this order: ask the arenas
      by_cases hpos : 0 < order
      · simp only [if_pos hpos, hrs, Option.bind_some]
        obtain ⟨ho, hfit⟩ := hw hpos
        rw [hrs] at hfit
        cases hblk : allocBlock order rs with
        | none => exact ⟨rs, rfl, har, hbuddy⟩
        | some res =>
          obtain ⟨start, rs'⟩ := res
          obtain ⟨hd, hc⟩ := allocBlock_carved ho hfit hblk
          obtain ⟨hpl, har'⟩ := hc.arenas har hd
          exact ⟨hpl, rs', rfl, har', hbuddy.carve hc⟩
      · simp only [if_neg hpos]
        exact ⟨rs, hrs, har, hbuddy⟩

theorem handsOut_allocPage (hh : hhdm < 2 ^ 64) (hr : ∀ r ∈ regions, r.hi < 2 ^ 64) (h : Inv hhdm regions s) :
    HandsOut hhdm regions s.held 0 (s.pmm.allocPage hhdm) := by
  have hbuddy := handsOut_allocPages 0 hh hr h (by omega)
  unfold Pmm.allocPage
  cases hres : s.pmm.allocPages hhdm 0 with
  | mk r p =>
    rw [hres] at hbuddy
    cases r with
    | some addr => exact hbuddy
    | none =>
      obtain ⟨rs, hrs, har, hown⟩ := hbuddy
      simp only [hrs, Option.bind_some]
      cases hpage : bootstrapAllocPage rs with
      | none => exact ⟨rs, hrs, har, hown⟩
      | some res =>
        obtain ⟨page, rs'⟩ := res
        obtain ⟨hd, hc⟩ := bootstrapAllocPage_carved har hr hpage
        have hc : Carved rs page (blockSize 0) rs' := hc.carved
        obtain ⟨hpl, har'⟩ := hc.arenas har hd
        exact ⟨hpl, rs', rfl, har', hown.carve hc⟩

/-- **The step lemma**: a disciplined call that fits keeps the invariant. -/
theorem Inv.step {s s' : Sys} {c : Call} (hh : hhdm < 2 ^ 64) (hr : ∀ r ∈ regions, r.hi < 2 ^ 64)
    (hpk : Packed regions) (ht : TouchAtMaxBlocks regions) (h : Inv hhdm regions s)
    (hd : Disciplined hhdm s c) (hf : CallFits s c) (hs : step hhdm s c = .ok s') : Inv hhdm regions s' := by
  cases c with
  | allocPage =>
    simp only [Physical.step, Except.ok.injEq] at hs
    exact hs ▸ (handsOut_allocPage hh hr h).inv h.placed
  | allocPages order =>
    simp only [Physical.step, Except.ok.injEq] at hs
    exact hs ▸ (handsOut_allocPages _ hh hr h fun _ => hf).inv h.placed
  | allocContiguous n =>
    simp only [Physical.step, Except.ok.injEq] at hs
    subst hs
    unfold Pmm.allocContiguous
    by_cases hn : n = 0
    · rw [if_pos hn]
      exact ⟨h.placed, h.owns⟩
    · rw [if_neg hn]
      exact (handsOut_allocPages _ hh hr h fun _ => hf).inv h.placed
  | freePages addr order =>
    obtain ⟨rs, hrs, har, hown⟩ := h.owns
    have hmem : (⟨addr, order⟩ : Block) ∈ s.held := hd
    have hperm := (perm_cons_erase hmem).map Block.span
    have hpl := h.placed _ hmem
    -- an order beyond the lists panics, so the call that returned had a listed order
    have ho : order ≤ maxOrder := by
      by_contra hgt
      simp [Physical.step, Pmm.freePages, BuddyAllocator.freePagesAt, bind, Except.bind,
        show maxOrder < order from by omega] at hs
    have hown' : Owns hhdm regions s.pmm.allocator (Block.span ⟨addr, order⟩ ::
        ((s.held.erase ⟨addr, order⟩).map Block.span ++ rs.map BootstrapRegion.tail)) := by
      obtain ⟨fl, hl, hp⟩ := hown
      exact ⟨fl, hl, hp.perm ((hperm.append_right _).append_left _)⟩
    obtain ⟨a, ha, hown''⟩ :=
      Owns.freePages hr hpk ht (maxOrder + 1) _ addr order _ ho (by omega) hpl hown'
    simp only [Physical.step, Pmm.freePages, ha, bind, Except.bind, Except.ok.injEq] at hs
    subst hs
    exact ⟨fun b hb => h.placed b (mem_of_mem_erase hb), rs, hrs, har, hown''⟩
  | clientWrite ptr word =>
    obtain ⟨rs, hrs, har, hown⟩ := h.owns
    obtain ⟨b, hb, x, hx, rfl⟩ := hd
    simp only [Physical.step, Except.ok.injEq] at hs
    subst hs
    obtain ⟨fl, hl, hp⟩ := hown
    exact ⟨h.placed, rs, hrs, har, fl,
      hl.clientWrite hr hp (mem_append_left _ (mem_map_of_mem hb)) hx ((h.placed b hb).has_lt hr hx), hp⟩

end

/-! ## Boot -/

theorem pageAlignUp_eq {x : Nat} (hd : pageSize ∣ x) (hx : x < 2 ^ 64) : pageAlignUp x = x := by
  obtain ⟨k, rfl⟩ := hd
  unfold pageAlignUp
  have hp : pageSize = 2 ^ 12 := rfl
  rw [hp] at hx ⊢
  rw [round_up (by omega) (by omega)]
  omega

/-- A whole-page entry is registered as it stands. -/
theorem extent_eq {e : MemoryMapEntry} {b n : Nat} (hw : e.WholePages) (h : e.extent = some (b, n)) :
    e.usable = true ∧ b = e.base ∧ b + n * pageSize = e.base + e.length ∧ b + n * pageSize < 2 ^ 64 := by
  obtain ⟨hb, hl, hle⟩ := hw
  have hlow : e.base < 2 ^ 64 ∨ e.base = 2 ^ 64 := by omega
  have hend : pageAlignUp (wadd e.base e.length) = wadd e.base e.length := by
    refine pageAlignUp_eq ?_ (wadd_lt _ _)
    exact (Nat.dvd_mod_iff (by decide)).mpr ((Nat.dvd_add_right hb).mpr hl)
  unfold MemoryMapEntry.extent at h
  simp only [hend] at h
  split at h
  · next hcond =>
    simp only [Option.some.injEq, Prod.mk.injEq] at h
    obtain ⟨hbase, hn⟩ := h
    have hwadd := wadd_lt e.base e.length
    have hwdef : wadd e.base e.length = (e.base + e.length) % 2 ^ 64 := rfl
    rcases hlow with hlow | hlow
    · rw [pageAlignUp_eq hb hlow] at hcond hbase hn
      obtain ⟨k, hk⟩ := hb
      obtain ⟨m, hm⟩ := hl
      unfold pageSize at *
      refine ⟨hcond.1, hbase.symm, ?_, ?_⟩ <;> omega
    · -- an entry that starts at the top of the address space has no page
      have hz : e.length = 0 := by omega
      rw [hwdef, hlow, hz] at hcond
      simp at hcond
  · cases h

/-- The span of a region `init` collected. -/
def regionSpan (r : Nat × Nat) : Span := ⟨r.1, r.1 + r.2 * pageSize⟩

variable {map : List MemoryMapEntry}

/-- The extents of a good map: whole pages, in the address space, apart. -/
theorem extents_good (hg : GoodMap map) :
    (∀ r ∈ map.filterMap MemoryMapEntry.extent, pageSize ∣ r.1 ∧ r.1 + r.2 * pageSize < 2 ^ 64) ∧
      Packed ((map.filterMap MemoryMapEntry.extent).map regionSpan) := by
  have hused : ∀ e ∈ map, ∀ r, e.extent = some r → e.usable = true := by
    intro e _ r hr
    simp only [MemoryMapEntry.extent] at hr
    split at hr
    · next hcond => exact hcond.1
    · cases hr
  constructor
  · intro r hr
    obtain ⟨e, he, her⟩ := mem_filterMap.mp hr
    have hw := hg.wholePages e he (hused e he r her)
    obtain ⟨-, hb, -, hlt⟩ := extent_eq hw her
    exact ⟨hb ▸ hw.1, hlt⟩
  · -- distinct entries have distinct spans, and each region's span is its entry's
    unfold Packed
    rw [pairwise_map, pairwise_filterMap]
    have hap := hg.apart
    unfold Packed at hap
    rw [pairwise_map, pairwise_filter] at hap
    refine hap.imp_of_mem fun {e e'} he he' h r hr r' hr' => ?_
    have hu := hused e he r hr
    have hu' := hused e' he' r' hr'
    obtain ⟨-, hb, hend, -⟩ := extent_eq (hg.wholePages e he hu) hr
    obtain ⟨-, hb', hend', -⟩ := extent_eq (hg.wholePages e' he' hu') hr'
    have hspan : regionSpan r = e.span := by
      simp only [regionSpan, MemoryMapEntry.span, hend]
      rw [hb]
    have hspan' : regionSpan r' = e'.span := by
      simp only [regionSpan, MemoryMapEntry.span, hend']
      rw [hb']
    rw [hspan, hspan']
    exact h hu hu'

/-- The regions `init` collects are among them. -/
theorem usableRegions_good (hg : GoodMap map) :
    (∀ r ∈ usableRegions map, pageSize ∣ r.1 ∧ r.1 + r.2 * pageSize < 2 ^ 64) ∧
      Packed ((usableRegions map).map regionSpan) := by
  have hsub : (usableRegions map).Sublist (map.filterMap MemoryMapEntry.extent) :=
    (take_sublist _ _).trans filter_sublist
  obtain ⟨hall, hpk⟩ := extents_good hg
  exact ⟨fun r hr => hall r (hsub.subset hr), hpk.sublist (hsub.map regionSpan)⟩

/-- The largest-first sort only reorders. -/
theorem sortRegions_perm (regions : Array (Nat × Nat)) : (sortRegions regions).toList.Perm regions.toList := by
  unfold sortRegions
  generalize List.range regions.size = is
  induction is generalizing regions with
  | nil => exact List.Perm.refl _
  | cons i is ih =>
    refine (ih _).trans ?_
    simp only [Array.swapIfInBounds_def]
    split
    · split
      · exact (Array.perm_iff_toList_perm.mp (Array.swap_perm _ _))
      · exact List.Perm.refl _
    · exact List.Perm.refl _

/-- Registering at most sixteen regions registers them all. -/
theorem foldl_addRegion : ∀ (l : List (Nat × Nat)) (rs : List BootstrapRegion), rs.length + l.length ≤ maxRegions →
    l.foldl (fun rs r => addRegion rs r.1 r.2) rs =
      rs ++ l.map fun r => { nextPage := r.1, endPage := wadd r.1 (r.2 * pageSize) }
  | [], rs, _ => by simp
  | r :: l, rs, h => by
    rw [length_cons] at h
    have hroom : ¬ maxRegions ≤ rs.length := by omega
    rw [foldl_cons, addRegion, if_neg hroom,
      foldl_addRegion l _ (by rw [length_append, length_singleton]; omega)]
    simp

/-- The bump arenas at boot. -/
theorem init_bootstrap (map : List MemoryMapEntry) (mem : Nat → Option Nat) :
    (init map mem).bootstrap = some ((sortRegions (usableRegions map).toArray).toList.map
      fun r => { nextPage := r.1, endPage := wadd r.1 (r.2 * pageSize) }) := by
  have hlen : (sortRegions (usableRegions map).toArray).toList.length ≤ maxRegions := by
    rw [(sortRegions_perm _).length_eq]
    exact length_take_le _ _
  simp only [init]
  rw [foldl_addRegion _ _ (by simpa using hlen)]
  rfl

theorem registered_good (hg : GoodMap map) : (∀ r ∈ registered map, r.hi < 2 ^ 64) ∧ Packed (registered map) ∧
      ∀ mem, ∃ rs, (init map mem).bootstrap = some rs ∧ Arenas (registered map) rs ∧
        rs.map BootstrapRegion.tail = registered map := by
  have hperm := sortRegions_perm (usableRegions map).toArray
  obtain ⟨hgood, hpk⟩ := usableRegions_good hg
  have hmem : ∀ r ∈ (sortRegions (usableRegions map).toArray).toList, r ∈ usableRegions map :=
    fun r hr => by simpa using hperm.mem_iff.mp hr
  have hreg : registered map =
      (sortRegions (usableRegions map).toArray).toList.map regionSpan := by
    unfold registered
    rw [init_bootstrap, Option.getD_some, map_map]
    refine map_congr_left fun r hr => ?_
    simp only [Function.comp, BootstrapRegion.tail, regionSpan]
    rw [wadd_eq (hgood r (hmem r hr)).2]
  refine ⟨?_, ?_, fun mem => ⟨_, init_bootstrap map mem, ?_, ?_⟩⟩
  · intro r hr
    rw [hreg] at hr
    obtain ⟨q, hq, rfl⟩ := mem_map.mp hr
    exact (hgood q (hmem q hq)).2
  · rw [hreg]
    exact hpk.perm (by simpa using (hperm.map regionSpan).symm)
  · intro r hr
    obtain ⟨q, hq, rfl⟩ := mem_map.mp hr
    obtain ⟨hd, hlt⟩ := hgood q (hmem q hq)
    simp only [wadd_eq hlt]
    refine ⟨hd, (Nat.dvd_add_right hd).mpr (Nat.dvd_mul_left _ _), regionSpan q, ?_, Nat.le_refl _, Nat.le_add_right _ _,
      Nat.le_refl _⟩
    rw [hreg]
    exact mem_map_of_mem hq
  · unfold registered
    rw [init_bootstrap, Option.getD_some]

/-- At boot the arenas own the regions, and nobody else owns anything. -/
theorem inv_boot {hhdm : Nat} (hg : GoodMap map)
    (mem : Nat → Option Nat) : Inv hhdm (registered map) (boot map mem) := by
  obtain ⟨-, hpk, hinit⟩ := registered_good hg
  obtain ⟨rs, hrs, har, htail⟩ := hinit mem
  refine ⟨fun b hb => absurd hb not_mem_nil, rs, hrs, har, fun _ => [], ⟨?_, ?_⟩, ?_⟩
  · intro o _
    exact rfl
  · intro o _ a ha
    exact absurd ha not_mem_nil
  · have hnil : freeSpans (fun _ => []) = [] := by decide
    rw [hnil, htail]
    exact hpk

/-! ## Whole runs -/

/-- The run lemma: the invariant holds in every state reached. -/
theorem reach_inv {hhdm : Nat} (hh : hhdm < 2 ^ 64)
    (hg : GoodMap map) (ht : TouchAtMaxBlocks (registered map)) (h : Reach hhdm map s) :
    Inv hhdm (registered map) s := by
  obtain ⟨hr, hpk, -⟩ := registered_good hg
  induction h with
  | boot mem => exact inv_boot hg mem
  | call c _ hd hf hs ih => exact ih.step hh hr hpk ht hd hf hs

/-- **Allocator safety.**  From any map of disjoint whole-page usable regions that touch only at 4 MiB
    multiples, every state reached by disciplined callers whose block requests stay inside the
    machine word is safe: held blocks are apart, aligned and each inside one region, and no held
    block meets a listed one. -/
theorem reach_safe {hhdm : Nat} {map : List MemoryMapEntry} {s : Sys} (hh : hhdm < 2 ^ 64)
    (hg : GoodMap map) (ht : TouchAtMaxBlocks (registered map)) (h : Reach hhdm map s) :
    Safe hhdm (registered map) s :=
  (reach_inv hh hg ht h).safe (registered_good hg).1

/-- A run of three calls on a two-page region satisfies every hypothesis. -/
theorem reach_safe_two_pages : ∃ s, Reach 0xFFFF800000000000 [⟨true, 0x100000, 0x2000⟩] s ∧ s.held = [⟨0x100000, 0⟩] ∧
      Safe 0xFFFF800000000000 (registered [⟨true, 0x100000, 0x2000⟩]) s := by
  have hg : GoodMap [⟨true, 0x100000, 0x2000⟩] := by
    refine ⟨fun e he _ => ?_, by simp [Packed]⟩
    rw [mem_singleton.mp he]
    exact ⟨by decide, by decide, by decide⟩
  have ht : TouchAtMaxBlocks (registered [⟨true, 0x100000, 0x2000⟩]) := by
    unfold TouchAtMaxBlocks
    decide
  have h0 : Reach 0xFFFF800000000000 [⟨true, 0x100000, 0x2000⟩] _ := Reach.boot fun _ => none
  have h1 := Reach.call .allocPage h0 trivial trivial rfl
  have h2 := Reach.call .allocPage h1 trivial trivial rfl
  have hheld : (⟨0x101000, 0⟩ : Block) ∈ ([⟨0x101000, 0⟩, ⟨0x100000, 0⟩] : List Block) := by decide
  have h3 := Reach.call (.freePages 0x101000 0) h2 hheld trivial rfl
  exact ⟨_, h3, by decide, reach_safe (by decide) hg ht h3⟩

/-- **Two ways out of the regions.**  `alloc_pages(52)`: the bump arena's block size is shifted out of
    the word, so the cursor is rounded to address 0 and a block at 0 is handed out.  And two one-page
    regions that touch: their pages, freed, merge into one block that lies in neither region. -/
theorem unsafe_runs : (GoodMap [⟨true, 0x100000, 0x2000⟩] ∧
      ∃ s, run 0xFFFF800000000000 (boot [⟨true, 0x100000, 0x2000⟩] fun _ => none) [.allocPages 52] = .ok s ∧
        DisciplinedRun 0xFFFF800000000000 (boot [⟨true, 0x100000, 0x2000⟩] fun _ => none) [.allocPages 52] ∧
        s.held = [⟨0, 52⟩] ∧ ¬ Safe 0xFFFF800000000000 (registered [⟨true, 0x100000, 0x2000⟩]) s) ∧
    (GoodMap [⟨true, 0x100000, 0x1000⟩, ⟨true, 0x101000, 0x1000⟩] ∧ ∃ s, run 0xFFFF800000000000
          (boot [⟨true, 0x100000, 0x1000⟩, ⟨true, 0x101000, 0x1000⟩] fun _ => none)
          [.allocPage, .allocPage, .freePages 0x100000 0, .freePages 0x101000 0, .allocPages 1] = .ok s ∧
        DisciplinedRun 0xFFFF800000000000 (boot [⟨true, 0x100000, 0x1000⟩, ⟨true, 0x101000, 0x1000⟩] fun _ => none)
          [.allocPage, .allocPage, .freePages 0x100000 0, .freePages 0x101000 0, .allocPages 1] ∧
        s.held = [⟨0x100000, 1⟩] ∧ ¬ Safe 0xFFFF800000000000
          (registered [⟨true, 0x100000, 0x1000⟩, ⟨true, 0x101000, 0x1000⟩]) s) := by
  refine ⟨⟨⟨?_, ?_⟩, _, rfl, ?_, by decide, fun h => ?_⟩,
    ⟨⟨?_, ?_⟩, _, rfl, ?_, by decide, fun h => ?_⟩⟩
  · intro e he _
    rw [mem_singleton.mp he]
    exact ⟨by decide, by decide, by decide⟩
  · simp [Packed]
  · exact ⟨trivial, trivial⟩
  · have hp := (h.heldPlaced ⟨0, 52⟩ (by decide)).2
    revert hp
    decide
  · intro e he _
    rcases mem_cons.mp he with rfl | he
    · exact ⟨by decide, by decide, by decide⟩
    · rw [mem_singleton.mp he]
      exact ⟨by decide, by decide, by decide⟩
  · unfold Packed
    simp only [filter_cons, filter_nil, if_true, map_cons, map_nil,
      pairwise_cons, mem_singleton, not_mem_nil, forall_eq]
    refine ⟨?_, by simp⟩
    rw [apart_iff (by decide) (by decide)]
    decide
  · have h1 : (⟨0x100000, 0⟩ : Block) ∈ ([⟨0x101000, 0⟩, ⟨0x100000, 0⟩] : List Block) := by decide
    have h2 : (⟨0x101000, 0⟩ : Block) ∈ ([⟨0x101000, 0⟩] : List Block) := by decide
    exact ⟨trivial, trivial, h1, h2, trivial, trivial⟩
  · have hp := (h.heldPlaced ⟨0x100000, 1⟩ (by decide)).2
    revert hp
    decide

end Folkering.Physical
