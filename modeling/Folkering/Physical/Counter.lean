/-
  What the allocator's page counter counts.

  `init` sets `free_pages` to the usable pages above the first megabyte.  From then on only the BUDDY side moves
  it: a block popped off a list is subtracted, the half that a split gives back is added, a merge subtracts the
  buddy and adds the whole.  A block that a bump arena hands out is counted in `ALLOCATED_PAGES` and nowhere
  else, and when it is freed it is ADDED to `free_pages` like any other.  The lists start empty, so the very first
  block a caller gets breaks the equation `free + held = usable`: it holds along a run only if the arenas have
  nothing to give to any call of the run (`counter_exact_iff`).
-/
import Mathlib.Algebra.Order.BigOperators.Group.List
import Folkering.Physical.Safety

namespace Folkering.Physical

open Chain Word64 Spans List

/-! ## The counters -/

/-- The statistics in bytes. -/
structure MemoryStats where
  totalBytes : Nat
  freeBytes : Nat
  usedBytes : Nat
deriving Repr, DecidableEq

/-- Multiplication in a release build. -/
def wmul (a b : Nat) : Nat := (a * b) % 2 ^ 64

/-- The statistics from the two counters, in 64-bit arithmetic. -/
def BuddyAllocator.stats (s : BuddyAllocator) : MemoryStats :=
  { totalBytes := wmul s.totalPages pageSize
    freeBytes := wmul s.freePages pageSize
    usedBytes := wmul (wsub s.totalPages s.freePages) pageSize }

/-- The usable pages at or above an address. -/
def usablePages (map : List MemoryMapEntry) (low : Nat) : Nat :=
  (((map.filterMap MemoryMapEntry.extent).filter fun r => low ≤ r.1).map (·.2)).sum

/-- The pages callers hold. -/
def heldPages (held : List Block) : Nat := (held.map fun b => 2 ^ b.order).sum

/-- **The counter is exact**: it is the number of managed pages (the usable ones above the first megabyte) that
    no caller holds, so it stays within the total and `stats` does not underflow. -/
structure CounterExact (map : List MemoryMapEntry) (s : Sys) : Prop where
  free : s.pmm.allocator.freePages + heldPages s.held = usablePages map 0x100000
  used : s.pmm.allocator.freePages ≤ s.pmm.allocator.totalPages

/-! ## Counting the map -/

theorem foldl_wadd (l : List (Nat × Nat)) (n : Nat) (h : n + (l.map (·.2)).sum < 2 ^ 64) :
    l.foldl (fun n r => wadd n r.2) n = n + (l.map (·.2)).sum := by
  induction l generalizing n with
  | nil => rfl
  | cons r l ih =>
    rw [map_cons, sum_cons] at h ⊢
    rw [foldl_cons, wadd_eq (by omega), ih _ (by omega)]
    omega

/-- The pages of a good map fit in the address space, so `init` counts them without wrapping. -/
theorem usablePages_lt {map : List MemoryMapEntry} (hg : GoodMap map) (low : Nat) : usablePages map low < 2 ^ 64 := by
  obtain ⟨hall, hpk⟩ := extents_good hg
  have hsub : ((map.filterMap MemoryMapEntry.extent).filter fun r => low ≤ r.1).Sublist
      (map.filterMap MemoryMapEntry.extent) := filter_sublist
  have hsum := (hpk.sublist (hsub.map regionSpan)).sum_size_le (n := 2 ^ 64 - 1) fun s hs => by
    obtain ⟨r, hr, rfl⟩ := mem_map.mp hs
    have := (hall r (hsub.subset hr)).2
    show r.1 + r.2 * pageSize ≤ _
    omega
  have hle : usablePages map low ≤ 2 ^ 64 - 1 := by
    refine le_trans ?_ hsum
    unfold usablePages
    rw [map_map]
    refine sum_le_sum fun r _ => ?_
    show r.2 ≤ r.1 + r.2 * pageSize - r.1
    unfold pageSize
    omega
  omega

theorem countPages_eq {map : List MemoryMapEntry} (hg : GoodMap map) (low : Nat) :
    countPages map low = usablePages map low := by
  have h := foldl_wadd ((map.filterMap MemoryMapEntry.extent).filter fun r => low ≤ r.1) 0 (by
    rw [Nat.zero_add]
    exact usablePages_lt hg low)
  rw [Nat.zero_add] at h
  exact h

/-- The pages above a mark are some of all the pages. -/
theorem usablePages_anti (map : List MemoryMapEntry) (low : Nat) : usablePages map low ≤ usablePages map 0 := by
  have hall : ((map.filterMap MemoryMapEntry.extent).filter fun r => 0 ≤ r.1) =
      map.filterMap MemoryMapEntry.extent := filter_eq_self.mpr fun r _ => by simp
  unfold usablePages
  rw [hall]
  exact (filter_sublist.map _).sum_le_sum fun x _ => Nat.zero_le x

theorem counterExact_boot {map : List MemoryMapEntry} (hg : GoodMap map) (mem : Nat → Option Nat) :
    CounterExact map (boot map mem) where
  free := countPages_eq hg 0x100000
  used := by
    show countPages map 0x100000 ≤ countPages map 0
    rw [countPages_eq hg, countPages_eq hg]
    exact usablePages_anti map 0x100000

@[simp] theorem heldPages_cons (b : Block) (held : List Block) :
    heldPages (b :: held) = 2 ^ b.order + heldPages held := by
  simp [heldPages]

/-! ## When the counter is exact -/

section

variable {hhdm : Nat} {map : List MemoryMapEntry}

/-- The bump arenas of a fresh boot. -/
def bootArenas (map : List MemoryMapEntry) : List BootstrapRegion := (init map fun _ => none).bootstrap.getD []

/-- A bump arena of a fresh boot has the memory the call asks for.  A request of order 0 made through
    `alloc_pages` never reaches the arenas. -/
def ArenaServes (map : List MemoryMapEntry) : Call → Prop
  | .allocPage => (bootstrapAllocPage (bootArenas map)).isSome
  | .allocPages order => 0 < order ∧ (allocBlock order (bootArenas map)).isSome
  | .allocContiguous n =>
    n ≠ 0 ∧ 0 < contiguousOrder n 10 0 ∧ (allocBlock (contiguousOrder n 10 0) (bootArenas map)).isSome
  | _ => False

/-- Empty lists have no block to give. -/
theorem allocPages_of_empty {s : BuddyAllocator} (h : ∀ o, s.freeLists o = none) (fuel order : Nat) :
    s.allocPages hhdm fuel order = (none, s) := by
  induction fuel generalizing order with
  | zero => rfl
  | succ fuel ih =>
    rw [BuddyAllocator.allocPages, h order]
    simp only [ih, ite_self]

/-- One block of the given order has left the arenas of a fresh boot. -/
def FirstBlock (map : List MemoryMapEntry) (s : Sys) : Prop :=
  s.pmm.allocator.freePages = countPages map 0x100000 ∧ ∃ b, s.held = [b]

/-- `alloc_pages` on a fresh boot is the arenas' answer. -/
theorem allocPages_boot (mem : Nat → Option Nat) (order : Nat) :
    (init map mem).allocPages hhdm order =
      match (if 0 < order then allocBlock order (bootArenas map) else none) with
      | some (addr, rs) => (some addr, { init map mem with
          bootstrap := some rs, allocatedPages := wadd 0 (wshl 1 order) })
      | none => (none, init map mem) := by
  have hempty := @allocPages_of_empty hhdm (init map mem).allocator (fun _ => rfl) (maxOrder + 1) order
  have hboot : (init map mem).bootstrap = some (bootArenas map) := rfl
  unfold Pmm.allocPages
  rw [hempty]
  by_cases hpos : 0 < order
  · simp only [if_pos hpos, hboot, Option.bind_some]
    cases allocBlock order (bootArenas map) <;> rfl
  · simp only [if_neg hpos]

/-- And so is `alloc_page`. -/
theorem allocPage_boot (mem : Nat → Option Nat) :
    (init map mem).allocPage hhdm = match bootstrapAllocPage (bootArenas map) with
      | some (page, rs) => (some page, { init map mem with
          bootstrap := some rs, allocatedPages := wadd 0 1 })
      | none => (none, init map mem) := by
  have hboot : (init map mem).bootstrap = some (bootArenas map) := rfl
  unfold Pmm.allocPage
  rw [allocPages_boot]
  simp only [Nat.lt_irrefl, if_false, hboot, Option.bind_some]
  cases bootstrapAllocPage (bootArenas map) <;> rfl

theorem step_allocPages_boot (mem : Nat → Option Nat) (order : Nat) :
    (0 < order ∧ (allocBlock order (bootArenas map)).isSome →
      FirstBlock map (Sys.hold [] order ((init map mem).allocPages hhdm order))) ∧
    (¬ (0 < order ∧ (allocBlock order (bootArenas map)).isSome) →
      Sys.hold [] order ((init map mem).allocPages hhdm order) = boot map mem) := by
  rw [allocPages_boot]
  by_cases hpos : 0 < order
  · rw [if_pos hpos]
    cases allocBlock order (bootArenas map) with
    | none => exact ⟨fun h => absurd h.2 (by simp), fun _ => rfl⟩
    | some res => exact ⟨fun _ => ⟨rfl, _, rfl⟩, fun h => absurd ⟨hpos, rfl⟩ h⟩
  · rw [if_neg hpos]
    exact ⟨fun h => absurd h.1 hpos, fun _ => rfl⟩

/-- The first call that an arena can serve is served; until then nothing happens. -/
theorem step_boot {mem : Nat → Option Nat} {c : Call} (hd : Disciplined hhdm (boot map mem) c) :
    (ArenaServes map c → ∃ s, step hhdm (boot map mem) c = .ok s ∧ FirstBlock map s) ∧
    (¬ ArenaServes map c → step hhdm (boot map mem) c = .ok (boot map mem)) := by
  cases c with
  | allocPage =>
    have hstep := @allocPage_boot hhdm map mem
    show ((bootstrapAllocPage (bootArenas map)).isSome → _) ∧
      (¬ (bootstrapAllocPage (bootArenas map)).isSome → _)
    simp only [step, boot, hstep]
    cases bootstrapAllocPage (bootArenas map) with
    | none => exact ⟨fun h => absurd h (by simp), fun _ => rfl⟩
    | some res => exact ⟨fun _ => ⟨_, rfl, rfl, _, rfl⟩, fun h => absurd rfl h⟩
  | allocPages order =>
    obtain ⟨hserved, hnone⟩ := @step_allocPages_boot hhdm map mem order
    exact ⟨fun h => ⟨_, rfl, hserved h⟩, fun h => congrArg Except.ok (hnone h)⟩
  | allocContiguous n =>
    obtain ⟨hserved, hnone⟩ := @step_allocPages_boot hhdm map mem (contiguousOrder n 10 0)
    simp only [step, boot, Pmm.allocContiguous, ArenaServes]
    by_cases hn : n = 0
    · rw [if_pos hn]
      exact ⟨fun h => absurd hn h.1, fun _ => rfl⟩
    · rw [if_neg hn]
      exact ⟨fun h => ⟨_, rfl, hserved h.2⟩, fun h => congrArg Except.ok (hnone fun hs => h ⟨hn, hs⟩)⟩
  | freePages addr order => exact absurd hd not_mem_nil
  | clientWrite ptr word =>
    obtain ⟨b, hb, -⟩ := hd
    exact absurd hb not_mem_nil

/-- The counter after the first block is still that of the whole memory. -/
theorem FirstBlock.not_exact {s : Sys} (hg : GoodMap map) (h : FirstBlock map s) : ¬ CounterExact map s := by
  intro hex
  obtain ⟨hfree, b, hb⟩ := h
  have hsum := hex.free
  have hpos := Nat.two_pow_pos b.order
  rw [hfree, hb, heldPages_cons, countPages_eq hg] at hsum
  omega

/-- **When the counter is exact.**  Over every good map and every sequence of calls by disciplined callers, the
    counter is exact in every state of the run iff the arenas have nothing to give to any of the calls, that is,
    iff nothing is ever allocated. -/
theorem counter_exact_iff (hhdm : Nat) (map : List MemoryMapEntry) (mem : Nat → Option Nat) (calls : List Call)
    (hg : GoodMap map) (hd : DisciplinedRun hhdm (boot map mem) calls) :
    (∀ done, done <+: calls → ∀ s, run hhdm (boot map mem) done = .ok s → CounterExact map s) ↔
      ∀ c ∈ calls, ¬ ArenaServes map c := by
  induction calls with
  | nil =>
    refine ⟨fun _ c hc => absurd hc not_mem_nil, fun _ done hdone s hs => ?_⟩
    rw [prefix_nil.mp hdone] at hs
    cases hs
    exact counterExact_boot hg mem
  | cons c calls ih =>
    obtain ⟨hc, hrest⟩ := hd
    obtain ⟨hserved, hnone⟩ := step_boot hc
    by_cases hserve : ArenaServes map c
    · -- the arenas can serve this call: the counter is off right after it
      refine iff_of_false (fun hall => ?_) fun hall => hall c mem_cons_self hserve
      obtain ⟨s, hs, hfirst⟩ := hserved hserve
      refine hfirst.not_exact hg (hall [c] ?_ s ?_)
      · exact prefix_append [c] calls
      · simp only [run, hs]
    · -- they cannot: the call changes nothing
      have hs := hnone hserve
      rw [hs] at hrest
      rw [forall_mem_cons, ← ih hrest]
      constructor
      · intro hall
        refine ⟨hserve, fun done hdone s hrun => hall (c :: done) ?_ s ?_⟩
        · exact (prefix_cons_inj c).mpr hdone
        · simp only [run, hs]
          exact hrun
      · rintro ⟨-, hall⟩ done hdone s hrun
        cases done with
        | nil =>
          cases hrun
          exact counterExact_boot hg mem
        | cons c' done =>
          obtain ⟨rfl, htail⟩ := cons_prefix_cons.mp hdone
          simp only [run, hs] at hrun
          exact hall done htail s hrun

end

/-- Two usable pages, right above the first megabyte. -/
def twoPages : List MemoryMapEntry := [⟨true, 0x100000, 0x2000⟩]

theorem goodMap_twoPages : GoodMap twoPages := by
  refine ⟨fun e he _ => ?_, by simp [Packed, twoPages]⟩
  rw [mem_singleton.mp he]
  exact ⟨by decide, by decide, by decide⟩

/-- Requests that two pages cannot meet leave the counter exact. -/
theorem counter_exact_two_pages :
    GoodMap twoPages ∧
      ∀ done, done <+: [.allocPages 5, .allocPages 0, .allocContiguous 3] → ∀ s,
        run 0xFFFF800000000000 (boot twoPages fun _ => none) done = .ok s → CounterExact twoPages s := by
  have hd : DisciplinedRun 0xFFFF800000000000 (boot twoPages fun _ => none)
      [.allocPages 5, .allocPages 0, .allocContiguous 3] := ⟨trivial, trivial, trivial, trivial⟩
  refine ⟨goodMap_twoPages, (counter_exact_iff _ _ _ _ goodMap_twoPages hd).mpr ?_⟩
  intro c hc
  simp only [mem_cons, not_mem_nil, or_false] at hc
  rcases hc with rfl | rfl | rfl
  · exact fun h => absurd h.2 (by decide)
  · exact fun h => absurd h.1 (by decide)
  · exact fun h => absurd h.2.2 (by decide)

/-- **A page taken and given back is counted twice**: two pages in all, nothing held, three pages free, and the
    used bytes wrap around. -/
theorem counter_exceeds_total :
    GoodMap twoPages ∧
      DisciplinedRun 0xFFFF800000000000 (boot twoPages fun _ => none) [.allocPage, .freePages 0x100000 0] ∧
      ∃ s, run 0xFFFF800000000000 (boot twoPages fun _ => none) [.allocPage, .freePages 0x100000 0] = .ok s ∧
        s.held = [] ∧ s.pmm.allocator.totalPages = 2 ∧ s.pmm.allocator.freePages = 3 ∧
        s.pmm.allocator.stats = ⟨0x2000, 0x3000, 2 ^ 64 - 0x1000⟩ ∧ ¬ CounterExact twoPages s := by
  have hheld : (⟨0x100000, 0⟩ : Block) ∈ ([⟨0x100000, 0⟩] : List Block) := by decide
  refine ⟨goodMap_twoPages, ⟨trivial, hheld, trivial⟩, _, rfl, by decide, by decide, by decide, by decide, ?_⟩
  intro h
  exact absurd h.used (by decide)

end Folkering.Physical
