/-
  Freeing a block twice (kernel/src/memory/physical.rs, `free_pages`).

  The check for a double free looks for the block on the list of ITS order.  A freed block that has been merged
  with its buddy is on no list under its own name, so a second free of it is taken for a first one.

  `freePagesOut` is `free_pages` with the state it ends in, by a return or by a panic: a panic in a merge comes
  after the buddy was unlisted.  The counter tells the cases apart.  A free that goes through adds `2^order`, one
  that panics after merging up to order `k` has subtracted `2^k - 2^order`, and only the panic of the first check
  leaves it as it was (`freePagesOut_counter`).

  `entry_iff_not_merged`: a freed block is on the list of its order exactly as long as no larger listed block contains it.
-/
import Folkering.Physical.Safety

namespace Folkering.Physical

open Chain Word64 Spans

section

variable (hhdm : Nat)

/-- How `free_pages(addr, order)` ends: the allocator as it is then, and the panic if there was one. -/
def freePagesOut : Nat → BuddyAllocator → Nat → Nat → BuddyAllocator × Option Panic
  | 0, s, _, _ => (s, none)
  | fuel + 1, s, addr, order =>
    if maxOrder < order then (s, some (.indexOutOfBounds order))
    else if isBlockFree hhdm s addr order then (s, some (.doubleFree addr order))
    else
      let buddyAddr := buddyAddress addr order
      if order < maxOrder ∧ isBlockFree hhdm s buddyAddr order then
        match removeFromFreeList hhdm s buddyAddr order with
        | .error e => (s, some e)
        | .ok s =>
          freePagesOut fuel { s with freePages := wsub s.freePages (2 ^ order) } (min addr buddyAddr) (order + 1)
      else
        let s := freeBlockUnchecked hhdm s addr order
        ({ s with freePages := wadd s.freePages (2 ^ order) }, none)

/-- The same call as `freePagesAt`. -/
theorem freePagesAt_eq_out : ∀ (fuel : Nat) (s : BuddyAllocator) (addr order : Nat),
    s.freePagesAt hhdm fuel addr order =
      match freePagesOut hhdm fuel s addr order with
      | (s', none) => .ok s'
      | (_, some e) => .error e
  | 0, s, addr, order => rfl
  | fuel + 1, s, addr, order => by
    unfold BuddyAllocator.freePagesAt freePagesOut
    split
    · rfl
    · split
      · rfl
      · dsimp only
        split
        · cases removeFromFreeList hhdm s (buddyAddress addr order) order with
          | error e => rfl
          | ok s' => exact freePagesAt_eq_out fuel _ _ _
        · rfl

end

variable {hhdm : Nat}

/-! ## The counter -/

/-- A block that was found is removed. -/
theorem removeFromFreeList_ok {s : BuddyAllocator} {addr order : Nat} (h : isBlockFree hhdm s addr order = true) :
    ∃ s', removeFromFreeList hhdm s addr order = .ok s' ∧ s'.freePages = s.freePages := by
  unfold removeFromFreeList
  rcases unlink_found none h with ⟨t, ht⟩ | ⟨q, t, ht⟩
  · rw [ht]
    exact ⟨_, rfl, rfl⟩
  · rw [ht]
    exact ⟨_, rfl, rfl⟩

/-- **The counter after a free**: untouched when the block was found at once; `2^order` more; or, after a panic at
    order `k`, less what was merged. -/
theorem freePagesOut_counter : ∀ (fuel : Nat) (s : BuddyAllocator) (addr order : Nat), order ≤ maxOrder →
    maxOrder < fuel + order → (isBlockFree hhdm s addr order = true ∧ (freePagesOut hhdm fuel s addr order).1 = s) ∨
    (isBlockFree hhdm s addr order = false ∧
      ((freePagesOut hhdm fuel s addr order).1.freePages = wadd s.freePages (2 ^ order) ∨
        ∃ k, order < k ∧ k ≤ maxOrder ∧
          (freePagesOut hhdm fuel s addr order).1.freePages = wsub s.freePages (2 ^ k - 2 ^ order)))
  | 0, s, addr, order, ho, hf => by omega
  | fuel + 1, s, addr, order, ho, hf => by
    unfold freePagesOut
    rw [if_neg (by omega)]
    cases hfree : isBlockFree hhdm s addr order with
    | true =>
      rw [if_pos rfl]
      exact .inl ⟨rfl, rfl⟩
    | false =>
      rw [if_neg (by simp)]
      refine .inr ⟨rfl, ?_⟩
      dsimp only
      by_cases hm : order < maxOrder ∧ isBlockFree hhdm s (buddyAddress addr order) order = true
      · -- merge: the recursive call has one of the three outcomes, for twice the pages
        rw [if_pos hm]
        obtain ⟨s', hs', hcount⟩ := removeFromFreeList_ok hm.2
        simp only [hs']
        have hpow : 2 ^ (order + 1) = 2 ^ order + 2 ^ order := by rw [Nat.pow_succ, Nat.mul_two]
        have hpos := Nat.two_pow_pos order
        rcases freePagesOut_counter fuel { s' with freePages := wsub s'.freePages (2 ^ order) }
          (min addr (buddyAddress addr order)) (order + 1) (by omega) (by omega) with ⟨-, hsame⟩ | ⟨-, hadd | ⟨k, hk, hkm, hsub⟩⟩
        · refine .inr ⟨order + 1, by omega, by omega, ?_⟩
          rw [hsame, hcount, hpow, Nat.add_sub_cancel]
        · refine .inl ?_
          rw [hadd, hcount, wadd_wsub _ (by omega), hpow, Nat.add_sub_cancel]
        · refine .inr ⟨k, by omega, hkm, ?_⟩
          have hkpow : 2 ^ (order + 1) < 2 ^ k := Nat.pow_lt_pow_right (by omega) hk
          rw [hsub, hcount, wsub_wsub]
          congr 1
          omega
      · rw [if_neg hm]
        exact .inl (by rw [freeBlockUnchecked_freePages])

/-- The counter stays exactly when the block is found on its list. -/
theorem freePagesOut_same_iff {s : BuddyAllocator} {addr order : Nat} (ho : order ≤ maxOrder) :
    (freePagesOut hhdm (maxOrder + 1) s addr order).1.freePages = s.freePages ↔
      isBlockFree hhdm s addr order = true := by
  have hsmall : ∀ k ≤ maxOrder, 2 ^ k < 2 ^ 64 := fun k hk =>
    Nat.pow_lt_pow_right (by omega) (by unfold maxOrder at hk; omega)
  rcases freePagesOut_counter (maxOrder + 1) s addr order ho (by omega) with ⟨hf, hs⟩ | ⟨hf, hadd | ⟨k, hk, hkm, hsub⟩⟩
  · rw [hs, hf]
    exact ⟨fun _ => rfl, fun _ => rfl⟩
  · rw [hf, hadd]
    exact ⟨fun h => absurd h (wadd_ne _ (Nat.two_pow_pos order) (hsmall order ho)), nofun⟩
  · rw [hf, hsub]
    have hlt : 2 ^ order < 2 ^ k := Nat.pow_lt_pow_right (by omega) hk
    have hk64 := hsmall k hkm
    exact ⟨fun h => absurd h (wsub_ne _ (Nat.sub_pos_of_lt hlt) (Nat.lt_of_le_of_lt (Nat.sub_le _ _) hk64)), nofun⟩

/-! ## Blocks that were freed -/

/-- The blocks share a byte. -/
def Block.meets (b c : Block) : Bool :=
  decide (b.addr < c.addr + blockSize c.order) && decide (c.addr < b.addr + blockSize b.order)

/-- The freed blocks after a call that ended in `s'`: a freed block joins them, and a block that is handed out
    again in part or whole is not one of them any more. -/
def freedAfter (freed : List Block) (s' : Sys) : Call → List Block
  | .freePages addr order => ⟨addr, order⟩ :: freed
  | _ => freed.filter fun b => s'.held.all fun c => !b.meets c

/-- The states reached by disciplined callers, with the blocks freed and not allocated again. -/
inductive FreedReach (hhdm : Nat) (map : List MemoryMapEntry) : Sys → List Block → Prop
  | boot (mem : Nat → Option Nat) : FreedReach hhdm map (boot map mem) []
  | call {s s' : Sys} {freed : List Block} (c : Call) (h : FreedReach hhdm map s freed) (hd : Disciplined hhdm s c)
      (hs : step hhdm s c = .ok s') : FreedReach hhdm map s' (freedAfter freed s' c)

/-- The freed blocks after a sequence of calls. -/
def freedRun (hhdm : Nat) (s : Sys) (freed : List Block) : List Call → List Block
  | [] => freed
  | c :: cs => match step hhdm s c with
    | .ok s' => freedRun hhdm s' (freedAfter freed s' c) cs
    | .error _ => freed

theorem FreedReach.run {map : List MemoryMapEntry} : ∀ (cs : List Call) {s s' : Sys} {freed : List Block},
    FreedReach hhdm map s freed → DisciplinedRun hhdm s cs → run hhdm s cs = .ok s' →
    FreedReach hhdm map s' (freedRun hhdm s freed cs)
  | [], s, s', freed, h, _, hr => by
    cases hr
    exact h
  | c :: cs, s, s', freed, h, hd, hr => by
    unfold Physical.run at hr
    unfold DisciplinedRun at hd
    unfold freedRun
    cases hs : step hhdm s c with
    | error e => simp [hs] at hr
    | ok t =>
      simp only [hs] at hd hr ⊢
      exact FreedReach.run cs (.call c h hd.1 hs) hd.2 hr

/-- A block that could be freed has one of the listed orders. -/
theorem order_le_of_freed {s s' : Sys} {addr order : Nat} (h : step hhdm s (.freePages addr order) = .ok s') :
    order ≤ maxOrder := by
  by_contra hgt
  simp [step, Pmm.freePages, BuddyAllocator.freePagesAt, bind, Except.bind,
    show maxOrder < order from by omega] at h

theorem FreedReach.order_le {map : List MemoryMapEntry} {s : Sys} {freed : List Block}
    (h : FreedReach hhdm map s freed) : ∀ b ∈ freed, b.order ≤ maxOrder := by
  induction h with
  | boot mem => nofun
  | call c _ _ hs ih =>
    intro b hb
    cases c with
    | freePages addr order =>
      rcases List.mem_cons.mp hb with rfl | hb
      · exact order_le_of_freed hs
      · exact ih b hb
    | allocPage => exact ih b (List.mem_of_mem_filter hb)
    | allocPages order => exact ih b (List.mem_of_mem_filter hb)
    | allocContiguous n => exact ih b (List.mem_of_mem_filter hb)
    | clientWrite ptr word => exact ih b (List.mem_of_mem_filter hb)

/-- The block is itself an entry of the list of its order, among the entries the search looks at. -/
def Listed (hhdm : Nat) (s : BuddyAllocator) (b : Block) : Prop :=
  ∃ k < maxHops, hop s.mem k (s.freeLists b.order) = some (physToVirt hhdm b.addr)

theorem isBlockFree_iff {s : BuddyAllocator} {b : Block} :
    isBlockFree hhdm s b.addr b.order = true ↔ Listed hhdm s b := holds_iff

/-- A further free of the block ends with the lists and the counter as they were. -/
structure Caught (hhdm : Nat) (s : BuddyAllocator) (b : Block) : Prop where
  lists : (freePagesOut hhdm (maxOrder + 1) s b.addr b.order).1.freeLists = s.freeLists
  links : (freePagesOut hhdm (maxOrder + 1) s b.addr b.order).1.mem = s.mem
  counter : (freePagesOut hhdm (maxOrder + 1) s b.addr b.order).1.freePages = s.freePages

theorem caught_iff {s : BuddyAllocator} {b : Block} (ho : b.order ≤ maxOrder) :
    Caught hhdm s b ↔ isBlockFree hhdm s b.addr b.order = true := by
  constructor
  · intro h
    exact (freePagesOut_same_iff ho).mp h.counter
  · intro h
    rcases freePagesOut_counter (maxOrder + 1) s b.addr b.order ho (by omega) with ⟨-, hs⟩ | ⟨hf, -⟩
    · exact ⟨by rw [hs], by rw [hs], by rw [hs]⟩
    · rw [hf] at h
      cases h

/-- **A double free is caught exactly when the block is still an entry of the list of its own order.** -/
theorem doubleFree_caught_iff {map : List MemoryMapEntry} {s : Sys} {freed : List Block} {b : Block}
    (h : FreedReach hhdm map s freed) (hb : b ∈ freed) :
    Caught hhdm s.pmm.allocator b ↔ Listed hhdm s.pmm.allocator b :=
  (caught_iff (h.order_le b hb)).trans isBlockFree_iff

/-- One page of two is freed: it stays on its list, and the second free is caught. -/
theorem doubleFree_caught_unmerged : ∃ s, FreedReach 0xFFFF800000000000 [⟨true, 0x100000, 0x2000⟩] s [⟨0x101000, 0⟩] ∧
      Caught 0xFFFF800000000000 s.pmm.allocator ⟨0x101000, 0⟩ := by
  have hheld : (⟨0x101000, 0⟩ : Block) ∈ ([⟨0x101000, 0⟩, ⟨0x100000, 0⟩] : List Block) := by decide
  have h := FreedReach.run [.allocPage, .allocPage, .freePages 0x101000 0]
    (@FreedReach.boot 0xFFFF800000000000 [⟨true, 0x100000, 0x2000⟩] fun _ => none) ⟨trivial, trivial, hheld, trivial⟩ rfl
  exact ⟨_, h, (doubleFree_caught_iff h List.mem_cons_self).mpr (isBlockFree_iff.mp (by decide))⟩

/-- Both pages are freed and merge into one block of order 1: freeing one of them again is not noticed, and it is
    listed a second time, inside the merged block. -/
theorem doubleFree_after_merge :
    ∃ s freed, FreedReach 0xFFFF800000000000 [⟨true, 0x100000, 0x2000⟩] s freed ∧ ⟨0x101000, 0⟩ ∈ freed ∧
      ¬ Caught 0xFFFF800000000000 s.pmm.allocator ⟨0x101000, 0⟩ := by
  have hfirst : (⟨0x101000, 0⟩ : Block) ∈ ([⟨0x101000, 0⟩, ⟨0x100000, 0⟩] : List Block) := by decide
  have h := FreedReach.run [.allocPage, .allocPage, .freePages 0x101000 0, .freePages 0x100000 0]
    (@FreedReach.boot 0xFFFF800000000000 [⟨true, 0x100000, 0x2000⟩] fun _ => none)
    ⟨trivial, trivial, hfirst, by unfold Disciplined; decide, trivial⟩ rfl
  refine ⟨_, _, h, by decide, fun hc => ?_⟩
  have hfree := (caught_iff (Nat.zero_le _)).mp hc
  revert hfree
  decide

/-! ## Merged blocks -/

/-- The block is an entry of the list of its order. -/
def Entry (hhdm : Nat) (s : BuddyAllocator) (b : Block) : Prop :=
  ∃ k, hop s.mem k (s.freeLists b.order) = some (physToVirt hhdm b.addr)

/-- The block has become part of a larger block that is listed. -/
def Merged (hhdm : Nat) (s : BuddyAllocator) (b : Block) : Prop :=
  ∃ c : Block, b.order < c.order ∧ c.order ≤ maxOrder ∧ c.addr < 2 ^ 64 ∧ b.span.Within c.span ∧ Entry hhdm s c

/-- The block lies in a listed block. -/
def Under (fl : Nat → List Nat) (b : Block) : Prop := ∃ sp ∈ freeSpans fl, b.span.Within sp

section

variable {regions : List Span} {s s' : BuddyAllocator} {fl fl' : Nat → List Nat} {b c : Block}

theorem Lists.entry_iff (hr : ∀ r ∈ regions, r.hi < 2 ^ 64) (hl : Lists hhdm regions s fl) (ho : b.order ≤ maxOrder)
    (hb : b.addr < 2 ^ 64) : Entry hhdm s b ↔ b.addr ∈ fl b.order := by
  rw [Entry, ← (hl.linked b.order ho).mem_iff_hop, List.mem_map]
  constructor
  · rintro ⟨a, ha, he⟩
    rwa [virt_inj ((hl.placed _ ho a ha).addr_lt hr) hb he] at ha
  · exact fun h => ⟨_, h, rfl⟩

/-- The memory determines what is under a listed block. -/
theorem Under.of_lists (hr : ∀ r ∈ regions, r.hi < 2 ^ 64) (hl : Lists hhdm regions s fl)
    (hl' : Lists hhdm regions s fl') (h : Under fl b) : Under fl' b := by
  obtain ⟨sp, hsp, hw⟩ := h
  obtain ⟨o, ho, a, ha, rfl⟩ := mem_flat.mp hsp
  have hle : o ≤ maxOrder := by omega
  have hlt := (hl.placed o hle a ha).addr_lt hr
  have hentry := (hl.entry_iff hr (b := ⟨a, o⟩) hle hlt).mpr ha
  exact ⟨_, mem_flat.mpr ⟨o, ho, a, (hl'.entry_iff hr (b := ⟨a, o⟩) hle hlt).mp hentry, rfl⟩, hw⟩

/-- Blocks of which one lies in the other share a byte. -/
theorem meets_of_within (h : b.span.Within c.span ∨ c.span.Within b.span) : b.meets c = true := by
  have hb := blockSize_pos b.order
  have hc := blockSize_pos c.order
  simp only [Span.Within, Block.span] at h
  simp only [Block.meets, Bool.and_eq_true, decide_eq_true_eq]
  omega

/-- An aligned block of a block that is halved lies in one half, or is the whole. -/
theorem within_half {addr order : Nat} (hb : blockSize b.order ∣ b.addr) (hal : blockSize (order + 1) ∣ addr)
    (h : b.span.Within (Block.span ⟨addr, order + 1⟩)) :
    b.span.Within (Block.span ⟨addr, order⟩) ∨ b.span.Within (Block.span ⟨addr + blockSize order, order⟩) ∨
      (Block.span ⟨addr, order⟩).Within b.span := by
  have hsucc := blockSize_succ order
  simp only [Span.Within, Block.span] at h ⊢
  rcases Nat.lt_or_ge order b.order with hlt | hge
  · -- the whole
    have hle : blockSize (order + 1) ≤ blockSize b.order := by
      rw [blockSize_eq_pow, blockSize_eq_pow]
      exact Nat.pow_le_pow_right (by omega) (by omega)
    omega
  · -- the middle is a multiple of the size of the block
    have hhalf : blockSize b.order ∣ blockSize order := by
      rw [blockSize_eq_pow, blockSize_eq_pow]
      exact Nat.pow_dvd_pow 2 (by omega)
    have hmid : blockSize b.order ∣ addr + blockSize order := by
      refine (Nat.dvd_add_right ?_).mpr hhalf
      exact (hhalf.trans (Dvd.intro_left 2 (by omega))).trans hal
    rcases Nat.lt_or_ge b.addr (addr + blockSize order) with hlow | hhigh
    · have hfit : b.addr + blockSize b.order ≤ addr + blockSize order := by
        obtain ⟨x, hx⟩ := hb
        obtain ⟨y, hy⟩ := hmid
        rw [hx, hy] at hlow ⊢
        exact Nat.mul_le_mul_left _ (Nat.lt_of_mul_lt_mul_left hlow)
      omega
    · omega

/-- What an allocation leaves listed: a block that was under a listed one still is, unless it meets the block that
    was handed out. -/
theorem Takes.under {order addr : Nat} (h : Takes fl order addr fl') (hb : blockSize b.order ∣ b.addr)
    (hu : Under fl b) :
    Under fl' b ∨ b.span.Within (Block.span ⟨addr, order⟩) ∨ (Block.span ⟨addr, order⟩).Within b.span := by
  induction h with
  | pop ho hperm =>
    obtain ⟨sp, hsp, hw⟩ := hu
    rcases List.mem_cons.mp ((freeSpans_take ho hperm).mem_iff.mp hsp) with rfl | hsp
    · exact .inr (.inl hw)
    · exact .inl ⟨sp, hsp, hw⟩
  | @split fl₁ order addr ho hal _ ih =>
    have hpush := @freeSpans_push fl₁ (addr + blockSize order) order ho
    have hkeep : ∀ sp, sp = Block.span ⟨addr + blockSize order, order⟩ ∨ sp ∈ freeSpans fl₁ → b.span.Within sp →
        Under (Function.update fl₁ order ((addr + blockSize order) :: fl₁ order)) b :=
      fun sp hsp hw => ⟨sp, hpush.mem_iff.mpr (List.mem_cons.mpr hsp), hw⟩
    rcases ih with ⟨sp, hsp, hw⟩ | hw | hw
    · exact .inl (hkeep sp (.inr hsp) hw)
    · rcases within_half hb hal hw with hw | hw | hw
      · exact .inr (.inl hw)
      · exact .inl (hkeep _ (.inl rfl) hw)
      · exact .inr (.inr hw)
    · refine .inr (.inr ⟨hw.1, Nat.le_trans ?_ hw.2⟩)
      simp only [Block.span, blockSize_succ]
      omega

/-- What a free leaves listed: all that was, and the block. -/
theorem Gives.under (h : Gives fl c fl') (hu : Under fl b ∨ b.span.Within c.span) : Under fl' b := by
  induction h with
  | list ho =>
    rcases hu with ⟨sp, hsp, hw⟩ | hw
    · exact ⟨sp, (freeSpans_push ho).mem_iff.mpr (List.mem_cons_of_mem _ hsp), hw⟩
    · exact ⟨_, (freeSpans_push ho).mem_iff.mpr List.mem_cons_self, hw⟩
  | merge ho hperm hin ha _ ih =>
    refine ih ?_
    rcases hu with ⟨sp, hsp, hw⟩ | hw
    · rcases List.mem_cons.mp ((freeSpans_take ho hperm).mem_iff.mp hsp) with rfl | hsp
      · exact .inr ⟨ha.1.trans hw.1, hw.2.trans ha.2⟩
      · exact .inl ⟨sp, hsp, hw⟩
    · exact .inr ⟨hin.1.trans hw.1, hw.2.trans hin.2⟩

/-! ## Freed blocks stay under listed ones -/

/-- Every freed block lies in a listed one. -/
def FreedListed (hhdm : Nat) (regions : List Span) (s : BuddyAllocator) (freed : List Block) : Prop :=
  ∃ fl, Lists hhdm regions s fl ∧ ∀ b ∈ freed, Placed regions b ∧ Under fl b

/-- The lists after an allocation at boot level, and that a block from the lists is the one returned. -/
structure Served (hhdm : Nat) (p : Pmm) (order : Nat) (r : Option Nat × Pmm) : Prop where
  lists : r.2.allocator = (p.allocator.allocPages hhdm (maxOrder + 1) order).2
  answer : ∀ addr, (p.allocator.allocPages hhdm (maxOrder + 1) order).1 = some addr → r.1 = some addr

theorem served_allocPages (p : Pmm) (order : Nat) : Served hhdm p order (p.allocPages hhdm order) := by
  unfold Pmm.allocPages
  rcases hres : p.allocator.allocPages hhdm (maxOrder + 1) order with ⟨_ | addr, a⟩
  · refine ⟨?_, fun addr h => by rw [hres] at h; cases h⟩
    dsimp only
    split
    · split <;> rw [hres]
    · rw [hres]
  · exact ⟨by rw [hres], fun addr h => by rw [hres] at h; exact h⟩

theorem served_allocPage (p : Pmm) : Served hhdm p 0 (p.allocPage hhdm) := by
  obtain ⟨hlists, hanswer⟩ := @served_allocPages hhdm p 0
  unfold Pmm.allocPage
  rcases hres : p.allocPages hhdm 0 with ⟨_ | addr, q⟩
  · rw [hres] at hlists hanswer
    refine ⟨?_, fun addr h => absurd (hanswer addr h) (by simp)⟩
    dsimp only
    split <;> exact hlists
  · rw [hres] at hlists hanswer
    exact ⟨hlists, hanswer⟩

/-- The block handed out takes the freed blocks it meets with it. -/
theorem FreedListed.hold {s : Sys} {freed : List Block} {order : Nat} {r : Option Nat × Pmm} (hh : hhdm < 2 ^ 64)
    (hr : ∀ r ∈ regions, r.hi < 2 ^ 64) (hdm : DirectMapped hhdm regions) (hinv : Inv hhdm regions s)
    (h : FreedListed hhdm regions s.pmm.allocator freed) (hs : Served hhdm s.pmm order r) :
    FreedListed hhdm regions (Sys.hold s.held order r).pmm.allocator
      (freed.filter fun b => (Sys.hold s.held order r).held.all fun c => !b.meets c) := by
  obtain ⟨rs, -, -, fl, hl, hp⟩ := hinv.owns
  obtain ⟨fl₀, hl₀, hfreed⟩ := h
  have hafter := hl.allocPages .of_packed mayDrop_packed hh hr hp (maxOrder + 1) order
  obtain ⟨res, p⟩ := r
  obtain ⟨hlists, hanswer⟩ := hs
  have hpmm : (Sys.hold s.held order (res, p)).pmm = p := by cases res <;> rfl
  rw [hpmm, show p.allocator = _ from hlists]
  rcases hres : s.pmm.allocator.allocPages hhdm (maxOrder + 1) order with ⟨_ | addr, a⟩
  · rw [hres] at hafter
    obtain ⟨fl', hl', -, heq⟩ := hafter
    refine ⟨fl', hl', fun b hb => ?_⟩
    obtain ⟨hpl, hu⟩ := hfreed b (List.mem_of_mem_filter hb)
    rw [heq hdm]
    exact ⟨hpl, hu.of_lists hr hl₀ hl⟩
  · rw [hres] at hafter hanswer
    obtain rfl : res = some addr := hanswer addr rfl
    obtain ⟨-, fl', hl', -, htakes⟩ := hafter
    refine ⟨fl', hl', fun b hb => ?_⟩
    rw [List.mem_filter] at hb
    obtain ⟨hpl, hu⟩ := hfreed b hb.1
    rcases (htakes hdm).under hpl.1 (hu.of_lists hr hl₀ hl) with hu | hw
    · exact ⟨hpl, hu⟩
    · have hnot := List.all_eq_true.mp hb.2 ⟨addr, order⟩ List.mem_cons_self
      rw [meets_of_within hw] at hnot
      cases hnot

/-- The step lemma. -/
theorem FreedListed.step {s s' : Sys} {freed : List Block} {call : Call} (hh : hhdm < 2 ^ 64)
    (hr : ∀ r ∈ regions, r.hi < 2 ^ 64) (hpk : Packed regions) (ht : TouchAtMaxBlocks regions)
    (hdm : DirectMapped hhdm regions) (hinv : Inv hhdm regions s) (h : FreedListed hhdm regions s.pmm.allocator freed)
    (hd : Disciplined hhdm s call) (hs : Physical.step hhdm s call = .ok s') :
    FreedListed hhdm regions s'.pmm.allocator (freedAfter freed s' call) := by
  cases call with
  | allocPage =>
    cases hs
    exact h.hold hh hr hdm hinv (served_allocPage _)
  | allocPages order =>
    cases hs
    exact h.hold hh hr hdm hinv (served_allocPages _ _)
  | allocContiguous n =>
    cases hs
    unfold Pmm.allocContiguous
    split
    · obtain ⟨fl, hl, hfreed⟩ := h
      exact ⟨fl, hl, fun b hb => hfreed b (List.mem_of_mem_filter hb)⟩
    · exact h.hold hh hr hdm hinv (served_allocPages _ _)
  | freePages addr order =>
    obtain ⟨rs, -, -, fl, hl, hp⟩ := hinv.owns
    obtain ⟨fl₀, hl₀, hfreed⟩ := h
    have hmem : (⟨addr, order⟩ : Block) ∈ s.held := hd
    have hpl := hinv.placed _ hmem
    have hperm := (((List.perm_cons_erase hmem).map Block.span).append_right (rs.map BootstrapRegion.tail)).append_left
      (freeSpans fl)
    obtain ⟨a, ha, fl', hl', -, hgives⟩ := Lists.freePages .of_packed mayDrop_packed hr hpk ht (maxOrder + 1) _ fl addr
      order (order_le_of_freed hs) (by omega) hpl hl (hp.perm hperm)
    simp only [Physical.step, Pmm.freePages, ha, bind, Except.bind, Except.ok.injEq] at hs
    subst hs
    refine ⟨fl', hl', fun b hb => ?_⟩
    rcases List.mem_cons.mp hb with rfl | hb
    · exact ⟨hpl, (hgives hdm).under (.inr ⟨Nat.le_refl _, Nat.le_refl _⟩)⟩
    · exact ⟨(hfreed b hb).1, (hgives hdm).under (.inl ((hfreed b hb).2.of_lists hr hl₀ hl))⟩
  | clientWrite ptr word =>
    obtain ⟨rs, -, -, fl, hl, hp⟩ := hinv.owns
    obtain ⟨fl₀, hl₀, hfreed⟩ := h
    obtain ⟨b, hb, x, hx, rfl⟩ := hd
    cases hs
    refine ⟨fl, hl.clientWrite hr hp (List.mem_append_left _ (List.mem_map_of_mem hb)) hx
      ((hinv.placed b hb).has_lt hr hx), fun b hb => ?_⟩
    obtain ⟨hpl, hu⟩ := hfreed b (List.mem_of_mem_filter hb)
    exact ⟨hpl, hu.of_lists hr hl₀ hl⟩

end

/-- The states reached by calls that fit, with the blocks freed and not allocated again. -/
inductive FreedFits (hhdm : Nat) (map : List MemoryMapEntry) : Sys → List Block → Prop
  | boot (mem : Nat → Option Nat) : FreedFits hhdm map (boot map mem) []
  | call {s s' : Sys} {freed : List Block} (c : Call) (h : FreedFits hhdm map s freed) (hd : Disciplined hhdm s c)
      (hf : CallFits s c) (hs : step hhdm s c = .ok s') : FreedFits hhdm map s' (freedAfter freed s' c)

/-- The run lemma: the invariant of the allocator, and freed blocks under listed ones. -/
theorem FreedFits.listed {map : List MemoryMapEntry} {s : Sys} {freed : List Block} (hh : hhdm < 2 ^ 64)
    (hg : GoodMap map) (ht : TouchAtMaxBlocks (registered map)) (hdm : DirectMapped hhdm (registered map))
    (h : FreedFits hhdm map s freed) :
    Inv hhdm (registered map) s ∧ FreedListed hhdm (registered map) s.pmm.allocator freed := by
  obtain ⟨hr, hpk, -⟩ := registered_good hg
  induction h with
  | boot mem =>
    have hinv : Inv hhdm (registered map) (Physical.boot map mem) := inv_boot hg mem
    obtain ⟨rs, -, -, fl, hl, -⟩ := hinv.owns
    exact ⟨hinv, fl, hl, fun b hb => absurd hb List.not_mem_nil⟩
  | call c _ hd hf hs ih => exact ⟨ih.1.step hh hr hpk ht hd hf hs, ih.2.step hh hr hpk ht hdm ih.1 hd hs⟩

/-- **A freed block is an entry of the list of its order exactly as long as it is not part of a larger free block.** -/
theorem entry_iff_not_merged {map : List MemoryMapEntry} {s : Sys} {freed : List Block} {b : Block} (hh : hhdm < 2 ^ 64)
    (hg : GoodMap map) (ht : TouchAtMaxBlocks (registered map)) (hdm : DirectMapped hhdm (registered map))
    (h : FreedFits hhdm map s freed) (hb : b ∈ freed) :
    Entry hhdm s.pmm.allocator b ↔ ¬ Merged hhdm s.pmm.allocator b := by
  have hr := (registered_good hg).1
  obtain ⟨hinv, fl₀, hl₀, hfreed⟩ := h.listed hh hg ht hdm
  obtain ⟨rs, -, -, fl, hl, hp⟩ := hinv.owns
  have hpf : Packed (freeSpans fl) := hp.sublist (List.sublist_append_left _ _)
  obtain ⟨hpl, hu⟩ := hfreed b hb
  obtain ⟨sp, hsp, hw⟩ := hu.of_lists hr hl₀ hl
  obtain ⟨o, ho, a, ha, rfl⟩ := mem_flat.mp hsp
  have hsize : blockSize b.order ≤ blockSize o := by
    simp only [Span.Within, Block.span] at hw
    omega
  have hle : b.order ≤ o := by
    rw [blockSize_eq_pow, blockSize_eq_pow] at hsize
    have := (Nat.pow_le_pow_iff_right (by omega : 1 < 2)).mp hsize
    omega
  have hblt : b.addr < 2 ^ 64 := hpl.addr_lt hr
  rw [hl.entry_iff hr (by omega) hblt]
  constructor
  · rintro hmem ⟨c, hlt, hco, hclt, hin, hentry⟩
    have hap := freeSpans_apart hpf (by omega) hco (by omega) hmem ((hl.entry_iff hr hco hclt).mp hentry)
    exact hap b.addr ⟨b.has_addr, hin.has b.has_addr⟩
  · intro hnot
    have halt := (hl.placed o (by omega) a ha).addr_lt hr
    have heq : b.order = o := by
      by_contra hne
      exact hnot ⟨⟨a, o⟩, by show b.order < o; omega, by show o ≤ maxOrder; omega, halt, hw,
        (hl.entry_iff hr (b := ⟨a, o⟩) (by show o ≤ maxOrder; omega) halt).mpr ha⟩
    subst heq
    have haddr : b.addr = a := by
      simp only [Span.Within, Block.span] at hw
      omega
    rwa [haddr]

end Folkering.Physical
