/-
  MAKING A VIRTQUEUE (`Virtqueue::new` of drivers/virtio.rs): the memory it obtains and the memory it writes.

  Descriptor table, available ring and used ring are laid out in ONE run of memory; the pages for it are asked for ONE BY
  ONE.  The code notices when they are not consecutive, prints a warning and goes on: it clears the run from the first
  page on and builds the queue there, whatever pages it was given.  And when the allocator runs dry half way, the pages
  obtained so far are not given back.

  Both are decided by what the allocator hands out next.  `create_ownMemory_iff`: the queue lies in memory of its own, and
  nothing is lost, exactly when the first request is refused or the pages handed out are, in some order, the consecutive
  pages from the first one on.  The argument is a count: as many pages as the run has can only cover it by being its pages
  (`ByteMem.starts_of_covered`).

  `init_inMemory` connects the memory to the queue the drivers work with (Block/Queue).
-/
import Folkering.Block.Queue
import Folkering.Physical.System
import Folkering.Lib.ByteMem

namespace Folkering.Block

open Physical Word64 ByteMem List

/-! ## The layout -/

/-- `usize::next_power_of_two`. -/
def nextPowerOfTwo (n : Nat) : Nat := if n ≤ 1 then 1 else 2 ^ ((n - 1).log2 + 1)

theorem le_nextPowerOfTwo (n : Nat) : n ≤ nextPowerOfTwo n := by
  unfold nextPowerOfTwo
  split
  · omega
  · have hlt : n - 1 < 2 ^ ((n - 1).log2 + 1) := Nat.lt_log2_self
    omega

theorem nextPowerOfTwo_le {n : Nat} (h : 0 < n) : nextPowerOfTwo n ≤ 2 * n := by
  unfold nextPowerOfTwo
  split
  · omega
  · have hle : 2 ^ (n - 1).log2 ≤ n - 1 := Nat.log2_self_le (by omega)
    rw [Nat.pow_succ]
    omega

/-- The bytes of the descriptor table. -/
def descSize (queueSize : Nat) : Nat := 16 * queueSize

/-- The bytes of the available ring. -/
def availSize (queueSize : Nat) : Nat := 6 + 2 * queueSize

/-- The used ring starts on a page of its own. -/
def usedOffset (queueSize : Nat) : Nat := (descSize queueSize + availSize queueSize + 4095) &&& wnot 4095

/-- The bytes of the used ring. -/
def usedSize (queueSize : Nat) : Nat := 6 + 8 * queueSize

/-- The pages of the three parts together. -/
def pagesNeeded (queueSize : Nat) : Nat := (usedOffset queueSize + usedSize queueSize + 4095) / 4096

/-- The pages asked for, a power of two. -/
def allocPagesCount (queueSize : Nat) : Nat := max (nextPowerOfTwo (pagesNeeded queueSize)) 1

/-- The three parts one after the other, inside the pages. -/
theorem layout_fits {queueSize : Nat} (h : queueSize ≤ 32768) :
    descSize queueSize + availSize queueSize ≤ usedOffset queueSize ∧
      usedOffset queueSize + usedSize queueSize ≤ allocPagesCount queueSize * pageSize ∧
      allocPagesCount queueSize * pageSize < 2 ^ 32 := by
  have hround : usedOffset queueSize = (descSize queueSize + availSize queueSize + 4095) / 4096 * 4096 :=
    @land_wnot _ 12 (by decide) (by unfold descSize availSize; omega)
  have hge : pagesNeeded queueSize ≤ allocPagesCount queueSize :=
    (le_nextPowerOfTwo _).trans (Nat.le_max_left _ _)
  have hpos : 0 < pagesNeeded queueSize := by
    unfold pagesNeeded usedSize
    omega
  have hle : allocPagesCount queueSize ≤ 2 * pagesNeeded queueSize :=
    Nat.max_le.mpr ⟨nextPowerOfTwo_le hpos, by omega⟩
  unfold pagesNeeded at hge hle
  unfold descSize availSize at hround ⊢
  unfold usedSize at hge hle ⊢
  unfold pageSize
  omega

/-! ## The call -/

/-- A store: the low `len` bytes of a number. -/
structure Store where
  addr : BitVec 64
  len : Nat
  value : Nat
deriving DecidableEq

/-- What `Virtqueue::new` returns, as far as memory is concerned: where the parts are. -/
structure Placement where
  descVirt : BitVec 64
  availVirt : BitVec 64
  usedVirt : BitVec 64
  queuePhys : Nat
  queueSize : Nat

/-- The outcome of a call: what it returns, the pages it obtained and gave back, what it wrote. -/
structure Creation where
  queue : Option Placement
  obtained : List Nat
  freed : List Nat
  stores : List Store

/-- The loop over the further pages. -/
structure Draw where
  /-- no request was refused -/
  complete : Bool
  allContiguous : Bool
  pages : List Nat

section

variable (hhdm : Nat)

/-- Pages `i`, `i + 1`, … up to the count, compared with the place they should have. -/
def drawFrom (firstPage : Nat) : Nat → Nat → Pmm → Draw
  | 0, _, _ => ⟨true, true, []⟩
  | n + 1, i, p => match p.allocPage hhdm with
    | (none, _) => ⟨false, true, []⟩
    | (some page, p) =>
      let d := drawFrom firstPage n (i + 1) p
      ⟨d.complete, decide (page = wadd firstPage (i * pageSize)) && d.allContiguous, page :: d.pages⟩

/-- The direct-map address of a page. -/
def virtOf (page : Nat) : BitVec 64 := BitVec.ofNat 64 (physToVirt hhdm page)

/-- The address of `next` in descriptor `i`. -/
def nextAddr (descVirt : BitVec 64) (i : Nat) : BitVec 64 := descVirt + BitVec.ofNat 64 (16 * i + 14)

/-- Clear the pages, thread the descriptors, end the list with the sentinel. -/
def initStores (queueVirt : BitVec 64) (queueSize : Nat) : List Store :=
  ⟨queueVirt, allocPagesCount queueSize * pageSize, 0⟩ ::
    ((List.range queueSize).map fun i => ⟨nextAddr queueVirt i, 2, (i + 1) % 2 ^ 16⟩) ++
    [⟨nextAddr queueVirt (queueSize - 1), 2, 0xFFFF⟩]

/-- `Virtqueue::new`.  No page is freed on any path, and the comparison of the pages decides nothing. -/
def create (p : Pmm) (queueSize : Nat) : Creation :=
  match p.allocPage hhdm with
  | (none, _) => { queue := none, obtained := [], freed := [], stores := [] }
  | (some firstPage, p) =>
    let d := drawFrom hhdm firstPage (allocPagesCount queueSize - 1) 1 p
    let queueVirt := virtOf hhdm firstPage
    if d.complete then
      { queue := some
          { descVirt := queueVirt
            availVirt := queueVirt + BitVec.ofNat 64 (descSize queueSize)
            usedVirt := queueVirt + BitVec.ofNat 64 (usedOffset queueSize)
            queuePhys := firstPage
            queueSize }
        obtained := firstPage :: d.pages
        freed := []
        stores := initStores queueVirt queueSize }
    else { queue := none, obtained := firstPage :: d.pages, freed := [], stores := [] }

/-! ## What is claimed, and when -/

/-- The parts of a queue: where they start and how long they are. -/
def Placement.parts (q : Placement) : List (BitVec 64 × Nat) :=
  [(q.descVirt, descSize q.queueSize), (q.availVirt, availSize q.queueSize), (q.usedVirt, usedSize q.queueSize)]

/-- Writes and parts stay in the pages obtained, the parts do not overlap, and a call that fails has given all back. -/
structure OwnMemory (c : Creation) : Prop where
  writes : ∀ w ∈ c.stores, ∀ b < w.len, InBlocks pageSize (c.obtained.map (virtOf hhdm)) (w.addr + BitVec.ofNat 64 b)
  inside : ∀ q ∈ c.queue, ∀ part ∈ q.parts, ∀ b < part.2,
    InBlocks pageSize (c.obtained.map (virtOf hhdm)) (part.1 + BitVec.ofNat 64 b)
  apart : ∀ q ∈ c.queue, q.parts.Pairwise fun x y => ByteMem.Apart x.1 x.2 y.1 y.2
  givenBack : c.queue = none → ∀ page ∈ c.obtained, page ∈ c.freed

/-- The pages the allocator hands out to the next `n` requests, if it refuses none. -/
def nextPages : Nat → Pmm → Option (List Nat)
  | 0, _ => some []
  | n + 1, p => match p.allocPage hhdm with
    | (none, _) => none
    | (some page, p) => (nextPages n p).map (page :: ·)

/-- In some order, the consecutive pages from the first one on. -/
def Consecutive (pages : List Nat) : Prop :=
  ∀ first ∈ pages.head?, ∀ i < pages.length, virtOf hhdm (first + i * pageSize) ∈ pages.map (virtOf hhdm)

/-- The condition on allocator and size: the first request is refused, or the pages come consecutive. -/
def Provides (p : Pmm) (queueSize : Nat) : Prop :=
  (p.allocPage hhdm).1 = none ∨ ∃ pages, nextPages hhdm (allocPagesCount queueSize) p = some pages ∧ Consecutive hhdm pages

end

/-! ## What a call does -/

section

variable {hhdm : Nat} {p : Pmm} {queueSize : Nat}

theorem allocPagesCount_pos (queueSize : Nat) : 0 < allocPagesCount queueSize := Nat.le_max_right _ _

theorem nextPages_length : ∀ {n : Nat} {p : Pmm} {pages : List Nat}, nextPages hhdm n p = some pages → pages.length = n
  | 0, _, _, h => by
    cases h
    rfl
  | n + 1, p, pages, h => by
    simp only [nextPages] at h
    split at h
    · cases h
    · obtain ⟨rest, hrest, rfl⟩ := Option.map_eq_some_iff.mp h
      rw [length_cons, nextPages_length hrest]

/-- The loop obtains what the allocator hands out, and stops at the first refusal. -/
theorem drawFrom_nextPages (firstPage : Nat) : ∀ (n i : Nat) (p : Pmm),
    (nextPages hhdm n p = none ∧ (drawFrom hhdm firstPage n i p).complete = false) ∨
      ∃ pages, nextPages hhdm n p = some pages ∧ (drawFrom hhdm firstPage n i p).complete = true ∧
        (drawFrom hhdm firstPage n i p).pages = pages
  | 0, _, _ => .inr ⟨[], rfl, rfl, rfl⟩
  | n + 1, i, p => by
    simp only [nextPages, drawFrom]
    split
    · exact .inl ⟨rfl, rfl⟩
    · rename_i page p' _
      rcases drawFrom_nextPages firstPage n (i + 1) p' with ⟨hnone, hstop⟩ | ⟨rest, hrest, hgo, hpages⟩
      · exact .inl ⟨by rw [hnone]; rfl, hstop⟩
      · exact .inr ⟨page :: rest, by rw [hrest]; rfl, hgo, by rw [hpages]⟩

/-- The queue in the pages from `firstPage` on. -/
def placeAt (hhdm firstPage queueSize : Nat) : Placement :=
  { descVirt := virtOf hhdm firstPage
    availVirt := virtOf hhdm firstPage + BitVec.ofNat 64 (descSize queueSize)
    usedVirt := virtOf hhdm firstPage + BitVec.ofNat 64 (usedOffset queueSize)
    queuePhys := firstPage
    queueSize }

/-- **The three outcomes**: no page at all; pages, and then a refusal; all the pages. -/
theorem create_cases (hhdm : Nat) (p : Pmm) (queueSize : Nat) :
    ((p.allocPage hhdm).1 = none ∧ create hhdm p queueSize = ⟨none, [], [], []⟩) ∨
    ((p.allocPage hhdm).1 ≠ none ∧ nextPages hhdm (allocPagesCount queueSize) p = none ∧
      ∃ firstPage rest, create hhdm p queueSize = ⟨none, firstPage :: rest, [], []⟩) ∨
    ((p.allocPage hhdm).1 ≠ none ∧ ∃ firstPage rest,
      nextPages hhdm (allocPagesCount queueSize) p = some (firstPage :: rest) ∧
      create hhdm p queueSize = ⟨some (placeAt hhdm firstPage queueSize), firstPage :: rest, [],
        initStores (virtOf hhdm firstPage) queueSize⟩) := by
  obtain ⟨n, hn⟩ : ∃ n, allocPagesCount queueSize = n + 1 := ⟨_, (Nat.succ_pred (allocPagesCount_pos _).ne').symm⟩
  unfold create
  rw [hn, Nat.add_sub_cancel]
  cases hfirst : p.allocPage hhdm with
  | mk res p' =>
    cases res with
    | none => exact .inl ⟨rfl, rfl⟩
    | some firstPage =>
      simp only [nextPages, hfirst]
      rcases drawFrom_nextPages firstPage n 1 p' with ⟨hnone, hstop⟩ | ⟨rest, hrest, hgo, hpages⟩
      · rw [if_neg (by rw [hstop]; exact Bool.false_ne_true)]
        exact .inr (.inl ⟨Option.some_ne_none _, by rw [hnone]; rfl, firstPage, _, rfl⟩)
      · rw [if_pos hgo, hpages]
        exact .inr (.inr ⟨Option.some_ne_none _, firstPage, rest, by rw [hrest]; rfl, rfl⟩)

/-! ## The run of memory and the pages -/

theorem virtOf_add (hhdm page off : Nat) : virtOf hhdm (page + off) = virtOf hhdm page + BitVec.ofNat 64 off := by
  apply BitVec.eq_of_toNat_eq
  simp only [virtOf, physToVirt, wadd, BitVec.toNat_add, BitVec.toNat_ofNat]
  omega

/-- Consecutive pages cover the run from the first one on. -/
theorem inBlocks_of_consecutive {firstPage : Nat} {rest : List Nat} (h : Consecutive hhdm (firstPage :: rest)) {c : Nat}
    (hc : c < (firstPage :: rest).length * pageSize) :
    InBlocks pageSize ((firstPage :: rest).map (virtOf hhdm)) (virtOf hhdm firstPage + BitVec.ofNat 64 c) := by
  have hpage : c / pageSize < (firstPage :: rest).length := (Nat.div_lt_iff_lt_mul (by decide)).mpr hc
  refine ⟨_, h firstPage rfl _ hpage, c % pageSize, Nat.mod_lt _ (by decide), ?_⟩
  rw [virtOf_add, add_assoc, BitVec.ofNat_add_ofNat, Nat.div_add_mod']

/-- As many pages as the run has cover it only by being its pages. -/
theorem consecutive_of_inBlocks {firstPage : Nat} {rest : List Nat} (hfit : (firstPage :: rest).length * pageSize ≤ 2 ^ 64)
    (h : ∀ c < (firstPage :: rest).length * pageSize,
      InBlocks pageSize ((firstPage :: rest).map (virtOf hhdm)) (virtOf hhdm firstPage + BitVec.ofNat 64 c)) :
    Consecutive hhdm (firstPage :: rest) := by
  rintro _ ⟨⟩ i hi
  rw [virtOf_add]
  rw [← length_map (virtOf hhdm)] at hfit h hi
  exact starts_of_covered (by decide) hfit mem_cons_self h i hi

/-- Every store and every part is at an offset inside the run. -/
theorem initStores_within {queueVirt : BitVec 64} (hpos : 1 ≤ queueSize) (hle : queueSize ≤ 32768) {w : Store}
    (hw : w ∈ initStores queueVirt queueSize) :
    ∃ o, w.addr = queueVirt + BitVec.ofNat 64 o ∧ o + w.len ≤ allocPagesCount queueSize * pageSize := by
  obtain ⟨h₁, h₂, -⟩ := layout_fits hle
  have hdesc : ∀ i < queueSize, 16 * i + 14 + 2 ≤ allocPagesCount queueSize * pageSize := by
    intro i hi
    unfold descSize at h₁
    omega
  simp only [initStores, cons_append, mem_cons, mem_append, mem_map, mem_range,
    not_mem_nil, or_false] at hw
  rcases hw with rfl | ⟨i, hi, rfl⟩ | rfl
  · exact ⟨0, by simp, by simp⟩
  · exact ⟨_, rfl, hdesc i hi⟩
  · exact ⟨_, rfl, hdesc (queueSize - 1) (by omega)⟩

theorem parts_within (hle : queueSize ≤ 32768) (firstPage : Nat) {part : BitVec 64 × Nat}
    (hpart : part ∈ (placeAt hhdm firstPage queueSize).parts) :
    ∃ o, part.1 = virtOf hhdm firstPage + BitVec.ofNat 64 o ∧ o + part.2 ≤ allocPagesCount queueSize * pageSize := by
  obtain ⟨h₁, h₂, -⟩ := layout_fits hle
  simp only [Placement.parts, placeAt, mem_cons, not_mem_nil, or_false] at hpart
  rcases hpart with rfl | rfl | rfl
  · exact ⟨0, by simp, by omega⟩
  · exact ⟨descSize queueSize, rfl, by omega⟩
  · exact ⟨usedOffset queueSize, rfl, h₂⟩

/-- The layout keeps the parts apart, for every size. -/
theorem parts_apart (hle : queueSize ≤ 32768) (firstPage : Nat) :
    (placeAt hhdm firstPage queueSize).parts.Pairwise fun x y => ByteMem.Apart x.1 x.2 y.1 y.2 := by
  obtain ⟨h₁, h₂, h₃⟩ := layout_fits hle
  have hzero : virtOf hhdm firstPage = virtOf hhdm firstPage + BitVec.ofNat 64 0 := by simp
  simp only [Placement.parts, placeAt, pairwise_cons, mem_cons, not_mem_nil, or_false,
    forall_eq_or_imp, forall_eq, false_imp_iff, implies_true, List.Pairwise.nil, and_true]
  refine ⟨⟨?_, ?_⟩, ?_⟩
  · nth_rewrite 1 [hzero]
    exact apart_offsets _ (.inl (by omega)) (by omega) (by omega)
  · nth_rewrite 1 [hzero]
    exact apart_offsets _ (.inl (by omega)) (by omega) (by omega)
  · exact apart_offsets _ (.inl (by omega)) (by omega) (by omega)

end

/-- **A queue is made in memory of its own, and nothing is lost, exactly when** the allocator refuses the first page or
    hands out consecutive pages. -/
theorem create_ownMemory_iff (hhdm : Nat) (p : Pmm) (queueSize : Nat) (hpos : 1 ≤ queueSize) (hle : queueSize ≤ 32768) :
    OwnMemory hhdm (create hhdm p queueSize) ↔ Provides hhdm p queueSize := by
  rcases create_cases hhdm p queueSize with ⟨hnone, hc⟩ | ⟨hsome, hnext, firstPage, rest, hc⟩ |
    ⟨hsome, firstPage, rest, hnext, hc⟩
  · -- nothing obtained, nothing written
    rw [hc]
    exact ⟨fun _ => .inl hnone, fun _ => ⟨by simp, by simp, by simp, by simp⟩⟩
  · -- the first page is lost
    rw [hc]
    constructor
    · intro h
      exact absurd (h.givenBack rfl firstPage mem_cons_self) not_mem_nil
    · rintro (hnone | ⟨pages, hpages, -⟩)
      · exact absurd hnone hsome
      · rw [hnext] at hpages
        cases hpages
  · have hlen := nextPages_length hnext
    obtain ⟨-, -, hfit⟩ := layout_fits hle
    rw [hc]
    constructor
    · intro h
      refine .inr ⟨_, hnext, consecutive_of_inBlocks (by rw [hlen]; omega) ?_⟩
      rw [hlen]
      exact h.writes _ mem_cons_self
    · rintro (hnone | ⟨pages, hpages, hcons⟩)
      · exact absurd hnone hsome
      · obtain rfl := Option.some.inj (hnext.symm.trans hpages)
        have hrun : ∀ (o len : Nat), o + len ≤ allocPagesCount queueSize * pageSize → ∀ b < len,
            InBlocks pageSize ((firstPage :: rest).map (virtOf hhdm))
              (virtOf hhdm firstPage + BitVec.ofNat 64 o + BitVec.ofNat 64 b) := by
          intro o len ho b hb
          rw [add_assoc, BitVec.ofNat_add_ofNat]
          exact inBlocks_of_consecutive hcons (by rw [hlen]; omega)
        refine ⟨?_, ?_, ?_, fun h => by cases h⟩
        · intro w hw b hb
          obtain ⟨o, haddr, ho⟩ := initStores_within hpos hle hw
          rw [haddr]
          exact hrun o w.len ho b hb
        · rintro q ⟨⟩ part hpart b hb
          obtain ⟨o, haddr, ho⟩ := parts_within hle firstPage hpart
          rw [haddr]
          exact hrun o part.2 ho b hb
        · rintro q ⟨⟩
          exact parts_apart hle firstPage

/-- Four pages of a fresh 8 MiB machine come one after the other. -/
theorem create_ownMemory_fresh :
    (create 0xFFFF800000000000 (init [⟨true, 0x400000, 0x800000⟩] fun _ => none) 256).obtained =
        [0x400000, 0x401000, 0x402000, 0x403000] ∧
      OwnMemory 0xFFFF800000000000
        (create 0xFFFF800000000000 (init [⟨true, 0x400000, 0x800000⟩] fun _ => none) 256) := by
  refine ⟨by decide +kernel, (create_ownMemory_iff _ _ 256 (by decide) (by decide)).mpr (.inr ⟨_, rfl, ?_⟩)⟩
  unfold Consecutive
  decide +kernel

/-- Two pages are taken and the first is given back.  The next call gets that one and pages behind the second, and clears
    the second, which is not its own. -/
theorem create_clears_foreign_page :
    ∃ s, Physical.run 0xFFFF800000000000 (boot [⟨true, 0x400000, 0x800000⟩] fun _ => none)
        [.allocPage, .allocPage, .freePages 0x400000 0] = .ok s ∧ s.held = [⟨0x401000, 0⟩] ∧
      (create 0xFFFF800000000000 s.pmm 256).obtained = [0x400000, 0x402000, 0x403000, 0x404000] ∧
      ¬ OwnMemory 0xFFFF800000000000 (create 0xFFFF800000000000 s.pmm 256) := by
  obtain ⟨s, hs, hheld, hpages, hclear⟩ : ∃ s,
      Physical.run 0xFFFF800000000000 (boot [⟨true, 0x400000, 0x800000⟩] fun _ => none)
        [.allocPage, .allocPage, .freePages 0x400000 0] = .ok s ∧ s.held = [⟨0x401000, 0⟩] ∧
      (create 0xFFFF800000000000 s.pmm 256).obtained = [0x400000, 0x402000, 0x403000, 0x404000] ∧
      ⟨virtOf 0xFFFF800000000000 0x400000, 16384, 0⟩ ∈ (create 0xFFFF800000000000 s.pmm 256).stores :=
    ⟨_, rfl, by decide +kernel, by decide +kernel, by decide +kernel⟩
  refine ⟨s, hs, hheld, hpages, fun h => ?_⟩
  have hforeign := h.writes _ hclear 4096 (by decide)
  rw [hpages, inBlocks_iff (by decide)] at hforeign
  obtain ⟨v, hv, hlt⟩ := hforeign
  obtain ⟨page, hpage, rfl⟩ := mem_map.mp hv
  simp only [mem_cons, not_mem_nil, or_false] at hpage
  rcases hpage with rfl | rfl | rfl | rfl <;> exact absurd hlt (by decide)

/-! ## The queue in memory -/

/-- Memory after some stores. -/
def applyStores (m : Mem) (stores : List Store) : Mem := stores.foldl (fun m w => write m w.addr w.len w.value) m

/-- Stores elsewhere are not seen. -/
theorem read_applyStores {a : BitVec 64} {n : Nat} {stores : List Store}
    (h : ∀ w ∈ stores, ByteMem.Apart a n w.addr w.len) (m : Mem) : read (applyStores m stores) a n = read m a n := by
  induction stores generalizing m with
  | nil => rfl
  | cons w ws ih =>
    show read (applyStores (write m w.addr w.len w.value) ws) a n = _
    rw [ih (fun x hx => h x (mem_cons_of_mem _ hx)), read_write_apart (h w mem_cons_self)]

/-- The number in `n` bytes at an offset. -/
def fieldAt (m : Mem) (base : BitVec 64) (o n : Nat) : Nat := read m (base + BitVec.ofNat 64 o) n

/-- The queue stands in memory, field by field. -/
structure Virtqueue.InMemory (q : Virtqueue) (m : Mem) (base : BitVec 64) : Prop where
  len : ∀ i < q.queueSize, fieldAt m base (16 * i + 8) 4 = (q.desc i).len
  flags : ∀ i < q.queueSize, fieldAt m base (16 * i + 12) 2 = (q.desc i).hasNext.toNat + 2 * (q.desc i).writable.toNat
  next : ∀ i < q.queueSize, fieldAt m base (16 * i + 14) 2 = (q.desc i).next
  availIdx : fieldAt m base (descSize q.queueSize + 2) 2 = q.nextAvail
  availRing : ∀ i < q.queueSize, fieldAt m base (descSize q.queueSize + 4 + 2 * i) 2 = q.availRing i
  usedIdx : fieldAt m base (usedOffset q.queueSize + 2) 2 = q.usedIdx
  usedRing : ∀ i < q.queueSize, (fieldAt m base (usedOffset q.queueSize + 4 + 8 * i) 4,
    fieldAt m base (usedOffset q.queueSize + 8 + 8 * i) 4) = q.usedRing i

section

variable (m : Mem) (base : BitVec 64) {queueSize : Nat}

/-- The two bytes at `next` of one descriptor are not those of another. -/
theorem nextAddr_apart {i j : Nat} (hi : i < 2 ^ 16) (hj : j < 2 ^ 16) (hne : i ≠ j) :
    ByteMem.Apart (nextAddr base i) 2 (nextAddr base j) 2 :=
  apart_offsets base (by omega) (by omega) (by omega)

/-- The loop over the descriptors threads them. -/
theorem read_threaded : ∀ {n i : Nat}, n < 2 ^ 16 → i < n →
    read (applyStores m ((List.range n).map fun i => ⟨nextAddr base i, 2, (i + 1) % 2 ^ 16⟩)) (nextAddr base i) 2 = i + 1
  | n + 1, i, hn, hi => by
    rw [range_succ, map_append, applyStores, foldl_append]
    show read (write (applyStores m _) (nextAddr base n) 2 ((n + 1) % 2 ^ 16)) (nextAddr base i) 2 = i + 1
    rcases Nat.lt_or_ge i n with hlt | hge
    · rw [read_write_apart (nextAddr_apart base (by omega) (by omega) hlt.ne)]
      exact read_threaded (by omega) hlt
    · obtain rfl : i = n := by omega
      rw [read_write_same _ _ _ (by decide)]
      omega

theorem init_next (hle : queueSize ≤ 32768) {i : Nat} (hi : i < queueSize) :
    fieldAt (applyStores m (initStores base queueSize)) base (16 * i + 14) 2 =
      if i + 1 < queueSize then i + 1 else 0xFFFF := by
  rw [initStores, applyStores, foldl_append]
  show read (write (applyStores (write m base _ 0) _) (nextAddr base (queueSize - 1)) 2 0xFFFF) (nextAddr base i) 2 = _
  split
  · rw [read_write_apart (nextAddr_apart base (by omega) (by omega) (by omega))]
    exact read_threaded _ base (by omega) hi
  · obtain rfl : i = queueSize - 1 := by omega
    rw [read_write_same _ _ _ (by decide)]
    rfl

/-- What is no `next` field is cleared. -/
theorem init_clears (hpos : 1 ≤ queueSize) (hle : queueSize ≤ 32768) {o n : Nat}
    (ho : o + n ≤ allocPagesCount queueSize * pageSize)
    (hout : ∀ i < queueSize, o + n ≤ 16 * i + 14 ∨ 16 * i + 14 + 2 ≤ o) :
    fieldAt (applyStores m (initStores base queueSize)) base o n = 0 := by
  have hfit := (layout_fits hle).2.2
  have hapart : ∀ i < queueSize, ByteMem.Apart (base + BitVec.ofNat 64 o) n (nextAddr base i) 2 :=
    fun i hi => apart_offsets base (hout i hi) (by omega) (by omega)
  show read (applyStores (write m base _ 0) (_ ++ [_])) (base + BitVec.ofNat 64 o) n = 0
  rw [read_applyStores, read_write_from m base 0 ho (by omega), Nat.zero_div, Nat.zero_mod]
  intro w hw
  simp only [mem_append, mem_map, mem_range, mem_singleton] at hw
  rcases hw with ⟨i, hi, rfl⟩ | rfl
  · exact hapart i hi
  · exact hapart _ (by omega)

/-- **The memory of a new queue is the queue the drivers work with**, whatever was there before. -/
theorem init_inMemory (hpos : 1 ≤ queueSize) (hle : queueSize ≤ 32768) :
    (Virtqueue.new queueSize).InMemory (applyStores m (initStores base queueSize)) base := by
  obtain ⟨h₁, h₂, -⟩ := layout_fits hle
  have hdesc : descSize queueSize = 16 * queueSize := rfl
  unfold availSize at h₁
  unfold usedSize at h₂
  have hzero := @init_clears m base queueSize hpos hle
  refine ⟨?_, ?_, fun i hi => init_next m base hle hi, ?_, ?_, ?_, ?_⟩
  · exact fun i (hi : i < queueSize) => hzero (by omega) fun j _ => by omega
  · exact fun i (hi : i < queueSize) => hzero (by omega) fun j _ => by omega
  · exact hzero (o := descSize queueSize + 2) (by omega) fun j _ => by omega
  · exact fun i (hi : i < queueSize) => hzero (o := descSize queueSize + 4 + 2 * i) (by omega) fun j _ => by omega
  · exact hzero (o := usedOffset queueSize + 2) (by omega) fun j _ => by omega
  · intro i (hi : i < queueSize)
    have hfst := hzero (o := usedOffset queueSize + 4 + 8 * i) (n := 4) (by omega) fun j _ => by omega
    have hsnd := hzero (o := usedOffset queueSize + 8 + 8 * i) (n := 4) (by omega) fun j _ => by omega
    exact Prod.ext hfst hsnd

/-- A queue of four over memory full of ones: the third descriptor leads to the fourth. -/
theorem init_inMemory_four : fieldAt (applyStores (fun _ => 255) (initStores 0x1000 4)) 0x1000 46 2 = 3 :=
  (init_inMemory (fun _ => 255) 0x1000 (by decide) (by decide)).next 2 (by decide)

end

end Folkering.Block
