/-
  `syscall_map_physical`: a task maps device memory into its address space.

  The capability check is about the BYTES `[phys, phys + size)`, the mapping is made of whole PAGES.
  When the size is not a multiple of the page size, the last page reaches past the checked bytes, and
  its tail lies in a held range only by luck (`mapPhysical_confined_iff`).

  The address types and the page-table walk come from the `x86_64` crate and are parameters here: the
  address types (`AddressTypes`) with what is assumed of them (`AddressLaws`), the walk
  (`Mapper::map_to`) as a function that may fail at any page.
-/
import Folkering.Capability.Model

namespace Folkering.Capability

/-- `u64::MAX`, the error value of the system call. -/
def u64Max : Nat := 2 ^ 64 - 1

/-! ## Addresses and page tables -/

/-- An address type was given an address that it has no value for. -/
inductive Panic where
  | virtAddrNotValid (addr : Nat)
  | physAddrNotValid (addr : Nat)
deriving Repr, DecidableEq

/-- The address types of the `x86_64` crate: `VirtAddr::new`, `PhysAddr::new`, and the start of the page
    or frame of a size that contains an address. -/
structure AddressTypes where
  virtAddrNew : Nat → Except Panic Nat
  physAddrNew : Nat → Except Panic Nat
  containingAddress (size addr : Nat) : Nat

/-- Bits 48 to 63 repeat bit 47. -/
def Canonical (addr : Nat) : Prop := addr < 2 ^ 47 ∨ 2 ^ 64 - 2 ^ 47 ≤ addr

instance (addr : Nat) : Decidable (Canonical addr) := inferInstanceAs (Decidable (_ ∨ _))

/-- What is assumed of the address types. -/
structure AddressLaws (X : AddressTypes) : Prop where
  /-- canonical addresses are virtual ones -/
  virt_ok {addr : Nat} (h : Canonical addr) : X.virtAddrNew addr = .ok addr
  /-- others panic -/
  virt_panics {addr : Nat} (h : ¬ Canonical addr) : ∃ e, X.virtAddrNew addr = .error e
  /-- physical addresses have 52 bits -/
  phys_ok {addr : Nat} (h : addr < 2 ^ 52) : X.physAddrNew addr = .ok addr
  /-- others panic -/
  phys_panics {addr : Nat} (h : ¬ addr < 2 ^ 52) : ∃ e, X.physAddrNew addr = .error e
  /-- an aligned address is the start of its page -/
  aligned {size addr : Nat} (h : addr % size = 0) : X.containingAddress size addr = addr

/-- Address types that have the laws. -/
def x86Addresses : AddressTypes where
  virtAddrNew addr := if Canonical addr then .ok addr else .error (.virtAddrNotValid addr)
  physAddrNew addr := if addr < 2 ^ 52 then .ok addr else .error (.physAddrNotValid addr)
  containingAddress size addr := addr / size * size

/-- They do. -/
theorem x86Addresses_laws : AddressLaws x86Addresses where
  virt_ok h := if_pos h
  virt_panics h := ⟨_, if_neg h⟩
  phys_ok h := if_pos h
  phys_panics h := ⟨_, if_neg h⟩
  aligned h := Nat.div_mul_cancel (Nat.dvd_of_mod_eq_zero h)

/-- The flags of a page entry that the calls use. -/
structure PageTableFlags where
  present : Bool
  userAccessible : Bool
  noExecute : Bool
  writable : Bool
  noCache : Bool
  writeThrough : Bool
deriving Repr, DecidableEq

/-- The size of a page. -/
def pageSize : Nat := 0x1000

/-- A page mapped to a frame. -/
structure Mapping where
  page : Nat
  frame : Nat
  flags : PageTableFlags
deriving Repr, DecidableEq

/-- What the system call did: its return value, the pages it mapped, the page tables after it. -/
structure Outcome (σ : Type) where
  value : Nat
  mapped : List Mapping
  tables : σ
deriving Repr, DecidableEq

section

variable {σ : Type} (X : AddressTypes) (mapTo : σ → Nat → Mapping → Option σ)

/-- `map_page_in_table`: the mapping and the new tables, or nothing. -/
def mapPageInTable (tables : σ) (pml4Phys virtAddr physAddr : Nat) (flags : PageTableFlags) :
    Except Panic (Option (Mapping × σ)) := do
  let virt ← X.virtAddrNew virtAddr
  let phys ← X.physAddrNew physAddr
  let m : Mapping := ⟨X.containingAddress pageSize virt, X.containingAddress pageSize phys, flags⟩
  return (mapTo tables pml4Phys m).map fun tables => (m, tables)

/-- The page loop, from page `i` on. -/
def mapPages (pml4Phys physAddr virtAddr : Nat) (flags : PageTableFlags) :
    Nat → Nat → List Mapping → σ → Except Panic (Outcome σ)
  | 0, _, mapped, tables => .ok ⟨0, mapped, tables⟩
  | n + 1, i, mapped, tables =>
    let phys := (physAddr + i * 0x1000) % 2 ^ 64
    let virt := (virtAddr + i * 0x1000) % 2 ^ 64
    match mapPageInTable X mapTo tables pml4Phys virt phys flags with
    | .error e => .error e
    | .ok none => .ok ⟨u64Max, mapped, tables⟩
    | .ok (some (m, tables)) => mapPages pml4Phys physAddr virtAddr flags n (i + 1) (mapped ++ [m])
        tables

/-- The flags of the system call. -/
def mapWrite : UInt64 := 0x02
/-- The flag for write-combining. -/
def mapCacheWc : UInt64 := 0x10
/-- The flag for uncached memory. -/
def mapCacheUc : UInt64 := 0x20

/-- The page flags for the flags of the call; no page is executable. -/
def pageFlags (flags : UInt64) : PageTableFlags :=
  let wc := flags &&& mapCacheWc != 0
  let uc := flags &&& mapCacheUc != 0
  { present := true, userAccessible := true, noExecute := true
    writable := flags &&& mapWrite != 0
    noCache := wc || uc
    writeThrough := !wc && uc }

/-- The whole pages that a size takes. -/
def numPages (size : UInt64) : Nat := (size.toNat + 0xFFF) / 0x1000

/-- `syscall_map_physical(phys_addr, virt_addr, size, flags)`, called by `task`. -/
def syscallMapPhysical (k : Kernel) (pageTablePhys : TaskId → Nat) (tables : σ) (task : TaskId)
    (physAddr virtAddr size flags : UInt64) : Except Panic (Outcome σ) :=
  let refuse : Except Panic (Outcome σ) := .ok ⟨u64Max, [], tables⟩
  if physAddr &&& 0xFFF != 0 || virtAddr &&& 0xFFF != 0 then refuse
  else if 0x8000000000000000 ≤ virtAddr then refuse
  else if size == 0 || 256 * 1024 * 1024 < size then refuse
  else if !k.hasMmioAccess task physAddr.toNat size.toNat &&
      !k.hasFramebufferAccess task physAddr.toNat size.toNat then refuse
  else if (k.tasks task).isNone then refuse
  else mapPages X mapTo (pageTablePhys task) physAddr.toNat virtAddr.toNat (pageFlags flags)
    (numPages size) 0 [] tables

end

/-! ## Confinement -/

/-- The task holds a capability for the range, as framebuffer or as device registers. -/
def HoldsRange (k : Kernel) (task : TaskId) (base size : Nat) : Prop :=
  k.hasMmioAccess task base size = true ∨ k.hasFramebufferAccess task base size = true

/-- The byte lies in a range the task holds a capability for. -/
def Covered (k : Kernel) (task : TaskId) (x : Nat) : Prop :=
  ∃ base size, base ≤ x ∧ x < base + size ∧ HoldsRange k task base size

/-- Every byte of every mapped page is covered, and every mapped page is in the user half. -/
structure Confined (k : Kernel) (task : TaskId) (mapped : List Mapping) : Prop where
  physical : ∀ m ∈ mapped, ∀ x, m.frame ≤ x → x < m.frame + pageSize → Covered k task x
  virtual : ∀ m ∈ mapped, m.page + pageSize ≤ 2 ^ 47

/-- The bytes that rounding up to whole pages adds to the request are covered too. -/
def TailCovered (k : Kernel) (task : TaskId) (physAddr size : UInt64) : Prop :=
  ∀ x, physAddr.toNat + size.toNat ≤ x → x < physAddr.toNat + numPages size * pageSize →
    Covered k task x

section

variable {σ : Type} {X : AddressTypes} (hX : AddressLaws X) {mapTo : σ → Nat → Mapping → Option σ}

include hX

/-- A page that is mapped has valid addresses. -/
theorem mapPageInTable_ok {tables tables' : σ} {pml4 virt phys : Nat} {flags : PageTableFlags}
    {m : Mapping} (h : mapPageInTable X mapTo tables pml4 virt phys flags = .ok (some (m, tables'))) :
    Canonical virt ∧ phys < 2 ^ 52 ∧
    m = ⟨X.containingAddress pageSize virt, X.containingAddress pageSize phys, flags⟩ := by
  unfold mapPageInTable at h
  by_cases hv : Canonical virt
  · by_cases hp : phys < 2 ^ 52
    · simp only [hX.virt_ok hv, hX.phys_ok hp, bind, Except.bind, pure, Except.pure, Except.ok.injEq,
        Option.map_eq_some_iff, Prod.mk.injEq] at h
      obtain ⟨_, -, rfl, -⟩ := h
      exact ⟨hv, hp, rfl⟩
    · obtain ⟨e, he⟩ := hX.phys_panics hp
      rw [hX.virt_ok hv, he] at h
      cases h
  · obtain ⟨e, he⟩ := hX.virt_panics hv
    rw [he] at h
    cases h

/-- The page that the loop maps in round `i`. -/
def roundPage (physAddr virtAddr : Nat) (flags : PageTableFlags) (i : Nat) : Mapping :=
  ⟨virtAddr + i * pageSize, physAddr + i * pageSize, flags⟩

/-- The pages of an aligned range start where the loop puts them. -/
theorem containingAddress_round {a i : Nat} (ha : a % pageSize = 0) :
    X.containingAddress pageSize (a + i * pageSize) = a + i * pageSize :=
  hX.aligned (by rwa [Nat.add_mul_mod_self_right])

/-- A loop that returns success has mapped one page a round, at consecutive addresses; each page is
    in the user half, because the start is and the addresses are canonical. -/
theorem mapPages_success {pml4 physAddr virtAddr : Nat} {flags : PageTableFlags}
    (hp : physAddr % pageSize = 0) (hv : virtAddr % pageSize = 0) (hp64 : physAddr < 2 ^ 64)
    (hv63 : virtAddr < 2 ^ 63) (n i : Nat) (hi : i + n ≤ 2 ^ 16) (mapped : List Mapping)
    (tables : σ) (o : Outcome σ) (h : mapPages X mapTo pml4 physAddr virtAddr flags n i mapped tables = .ok o)
    (hval : o.value = 0) (hlow : i = 0 ∨ physAddr < 2 ^ 52) :
    o.mapped = mapped ++ (List.range' i n).map (roundPage physAddr virtAddr flags) ∧
    ∀ j, i ≤ j → j < i + n → virtAddr + (j + 1) * pageSize ≤ 2 ^ 47 := by
  induction n generalizing i mapped tables with
  | zero =>
    cases h
    refine ⟨by simp, ?_⟩
    intro j hij hj
    omega
  | succ n ih =>
    simp only [mapPages] at h
    split at h
    · cases h
    · cases h
      simp [u64Max] at hval
    · rename_i m tables' hmap
      obtain ⟨hcanon, h52, rfl⟩ := mapPageInTable_ok hX hmap
      have hlow' : physAddr < 2 ^ 52 := by omega
      have hpmod : (physAddr + i * 0x1000) % 2 ^ 64 = physAddr + i * pageSize := by
        simp only [pageSize]
        omega
      have hvmod : (virtAddr + i * 0x1000) % 2 ^ 64 = virtAddr + i * pageSize := by
        simp only [pageSize]
        omega
      rw [hvmod, Canonical] at hcanon
      obtain ⟨hmapped, hpages⟩ := ih (i + 1) (by omega) _ _ h (.inr hlow')
      refine ⟨?_, ?_⟩
      · rw [hmapped, hpmod, hvmod, containingAddress_round hX hp, containingAddress_round hX hv]
        simp [List.range'_succ, roundPage]
      · intro j hij hj
        rcases hij.lt_or_eq with hlt | rfl
        · exact hpages j hlt (by omega)
        · simp only [pageSize] at *
          omega

omit hX in
/-- The alignment check of the system call. -/
theorem aligned_of_and {a : UInt64} (h : a &&& 0xFFF = 0) : a.toNat % pageSize = 0 := by
  have hnat : (a &&& 0xFFF).toNat = a.toNat % 2 ^ 12 := by
    rw [UInt64.toNat_and]
    exact Nat.and_two_pow_sub_one_eq_mod a.toNat 12
  rw [h] at hnat
  exact hnat.symm

/-- What a successful call has checked and mapped. -/
theorem mapPhysical_success {k : Kernel} {pageTablePhys : TaskId → Nat} {tables : σ}
    {task : TaskId} {physAddr virtAddr size flags : UInt64} {o : Outcome σ}
    (h : syscallMapPhysical X mapTo k pageTablePhys tables task physAddr virtAddr size flags = .ok o)
    (hval : o.value = 0) :
    HoldsRange k task physAddr.toNat size.toNat ∧
    o.mapped = (List.range' 0 (numPages size)).map
      (roundPage physAddr.toNat virtAddr.toNat (pageFlags flags)) ∧
    ∀ j < numPages size, virtAddr.toNat + (j + 1) * pageSize ≤ 2 ^ 47 := by
  have hrefuse : ∀ {o : Outcome σ}, (.ok ⟨u64Max, [], tables⟩ : Except Panic (Outcome σ)) = .ok o →
      o.value ≠ 0 := by
    rintro _ ⟨⟩
    exact (by decide : u64Max ≠ 0)
  unfold syscallMapPhysical at h
  simp only at h
  split at h
  · exact absurd hval (hrefuse h)
  rename_i halign
  split at h
  · exact absurd hval (hrefuse h)
  rename_i hhalf
  split at h
  · exact absurd hval (hrefuse h)
  rename_i hsize
  split at h
  · exact absurd hval (hrefuse h)
  rename_i hcap
  split at h
  · exact absurd hval (hrefuse h)
  simp only [Bool.or_eq_true, bne_iff_ne, ne_eq, not_or, Decidable.not_not] at halign
  simp only [Bool.or_eq_true, beq_iff_eq, decide_eq_true_eq, not_or, UInt64.not_lt] at hsize
  have hv63 : virtAddr.toNat < 2 ^ 63 := by
    simpa [UInt64.not_le, UInt64.lt_iff_toNat_lt] using hhalf
  have hle : size.toNat ≤ 256 * 1024 * 1024 := by
    simpa [UInt64.le_iff_toNat_le] using hsize.2
  have hn : 0 + numPages size ≤ 2 ^ 16 := by
    unfold numPages
    omega
  obtain ⟨hmapped, hpages⟩ := mapPages_success hX (aligned_of_and halign.1) (aligned_of_and halign.2)
    physAddr.toNat_lt hv63 (numPages size) 0 hn [] tables o h hval (.inl rfl)
  refine ⟨?_, by simpa using hmapped, fun j hj => hpages j (Nat.zero_le _) (by omega)⟩
  unfold HoldsRange
  grind

/-- **Confinement of physical mappings.**  Given address types with the laws, for every call that returns success, the mapped pages are
    confined to what the caller holds and to the user half iff the bytes that rounding the size up to
    whole pages adds to the request are held too. -/
theorem mapPhysical_confined_iff (k : Kernel) (pageTablePhys : TaskId → Nat) (tables : σ)
    (task : TaskId) (physAddr virtAddr size flags : UInt64) (o : Outcome σ)
    (h : syscallMapPhysical X mapTo k pageTablePhys tables task physAddr virtAddr size flags = .ok o)
    (hval : o.value = 0) : Confined k task o.mapped ↔ TailCovered k task physAddr size := by
  obtain ⟨hrange, hmapped, hpages⟩ := mapPhysical_success hX h hval
  constructor
  · intro hc x hlo hhi
    -- the byte lies in the last page
    set i := (x - physAddr.toNat) / pageSize with hi
    have hmem : roundPage physAddr.toNat virtAddr.toNat (pageFlags flags) i ∈ o.mapped := by
      rw [hmapped]
      refine List.mem_map_of_mem (List.mem_range'_1.mpr ⟨Nat.zero_le _, ?_⟩)
      simp only [pageSize] at hi hhi
      omega
    refine hc.physical _ hmem x ?_ ?_ <;> simp only [roundPage, pageSize] at * <;> omega
  · intro htail
    refine ⟨?_, ?_⟩
    · intro m hm x hlo hhi
      rw [hmapped] at hm
      obtain ⟨i, hi, rfl⟩ := List.mem_map.mp hm
      have hin : i < numPages size := by simpa using hi
      have hend : (i + 1) * pageSize ≤ numPages size * pageSize := Nat.mul_le_mul_right _ hin
      simp only [roundPage] at hlo hhi
      by_cases hx : x < physAddr.toNat + size.toNat
      · exact ⟨physAddr.toNat, size.toNat, by omega, hx, hrange⟩
      · exact htail x (by omega) (by rw [Nat.add_mul] at hend; omega)
    · intro m hm
      rw [hmapped] at hm
      obtain ⟨i, hi, rfl⟩ := List.mem_map.mp hm
      have hin : i < numPages size := by simpa using hi
      have := hpages i hin
      simp only [roundPage]
      rw [Nat.add_mul] at this
      omega

end

/-! ## What a held range is -/

/-- The byte lies in the region of the capability; `All` stands for every region. -/
def CapabilityType.regionHas (x : Nat) : CapabilityType → Bool
  | .all => true
  | .mmioRegion base size | .framebuffer base size => base ≤ x && x < base + size
  | _ => false

theorem rangeCovers_iff {b1 s1 b2 s2 : Nat} : rangeCovers b1 s1 b2 s2 = true ↔
    b1 ≤ b2 ∧ b2 + s2 ≤ b1 + s1 ∧ b1 + s1 < 2 ^ 64 := by
  unfold rangeCovers checkedAdd
  grind

/-- A capability that grants a region around a byte has the byte in its own region. -/
theorem regionHas_of_grants {held : CapabilityType} {base size x : Nat} (hlo : base ≤ x)
    (hhi : x < base + size)
    (hg : held.grants (.mmioRegion base size) = true ∨ held.grants (.framebuffer base size) = true) :
    held.regionHas x = true := by
  have hcovers : ∀ b s, rangeCovers b s base size = true → b ≤ x ∧ x < b + s := by
    intro b s hc
    obtain ⟨h₁, h₂, -⟩ := rangeCovers_iff.mp hc
    omega
  cases held with
  | all => rfl
  | mmioRegion b s | framebuffer b s =>
    simp only [CapabilityType.grants, CapabilityType.grantsOther, reduceCtorEq, if_false] at hg
    simp only [CapabilityType.regionHas, Bool.and_eq_true, decide_eq_true_eq]
    grind
  | _ => simp [CapabilityType.grants, CapabilityType.grantsOther] at hg

/-- Covered bytes, read off the table: the task lists a live framebuffer or device capability whose
    region has the byte, or `All`. -/
theorem covered_iff (k : Kernel) (task : TaskId) (x : Nat) :
    Covered k task x ↔ ∃ ids, k.tasks task = some ids ∧ ∃ id ∈ ids, ∃ e,
      k.table.get id = some e ∧ e.valid = true ∧ e.capType.regionHas x = true := by
  have hauth : ∀ ty, k.hasCapability task ty = true ↔ ∃ ids, k.tasks task = some ids ∧
      ∃ id ∈ ids, ∃ e, k.table.get id = some e ∧ e.valid = true ∧ e.capType.grants ty = true := by
    intro ty
    unfold Kernel.hasCapability Kernel.authorises
    grind
  constructor
  · rintro ⟨base, size, hlo, hhi, hm | hf⟩
    · obtain ⟨ids, hids, id, hid, e, hget, hval, hg⟩ := (hauth _).mp hm
      exact ⟨ids, hids, id, hid, e, hget, hval, regionHas_of_grants hlo hhi (.inl hg)⟩
    · obtain ⟨ids, hids, id, hid, e, hget, hval, hg⟩ := (hauth _).mp hf
      exact ⟨ids, hids, id, hid, e, hget, hval, regionHas_of_grants hlo hhi (.inr hg)⟩
  · rintro ⟨ids, hids, id, hid, e, hget, hval, hhas⟩
    -- the capability grants its own region exactly
    have hself : ∀ ty, e.capType.grants ty = true → k.hasCapability task ty = true :=
      fun ty hg => (hauth ty).mpr ⟨ids, hids, id, hid, e, hget, hval, hg⟩
    cases hty : e.capType with
    | all => exact ⟨x, 1, le_rfl, Nat.lt_succ_self x, .inl (hself _ (by simp [hty, CapabilityType.grants]))⟩
    | mmioRegion b s =>
      simp only [hty, CapabilityType.regionHas, Bool.and_eq_true, decide_eq_true_eq] at hhas
      exact ⟨b, s, hhas.1, hhas.2, .inl (hself _ (by simp [hty, CapabilityType.grants]))⟩
    | framebuffer b s =>
      simp only [hty, CapabilityType.regionHas, Bool.and_eq_true, decide_eq_true_eq] at hhas
      exact ⟨b, s, hhas.1, hhas.2, .inr (hself _ (by simp [hty, CapabilityType.grants]))⟩
    | _ => simp [hty, CapabilityType.regionHas] at hhas

/-- A task that holds half a page of device registers. -/
def halfPageHolder : Kernel := (Kernel.boot [1]).run [.grant 1 (.mmioRegion 0x1000 0x800)]

/-- A task that holds a whole page of device registers. -/
def pageHolder : Kernel := (Kernel.boot [1]).run [.grant 1 (.mmioRegion 0x1000 0x1000)]

/-- The one page that a request for (part of) the page at `0x1000` maps. -/
def registerPage : Mapping := ⟨0x400000, 0x1000, pageFlags mapWrite⟩

/-- A request for the whole page stays confined. -/
theorem mapPhysical_confined_page :
    syscallMapPhysical x86Addresses (fun (_ : Unit) _ _ => some ()) pageHolder (fun _ => 0) () 1 0x1000 0x400000
      0x1000 mapWrite = .ok ⟨0, [registerPage], ()⟩ ∧ Confined pageHolder 1 [registerPage] := by
  have hcall : syscallMapPhysical x86Addresses (fun (_ : Unit) _ _ => some ()) pageHolder (fun _ => 0) () 1
      0x1000 0x400000 0x1000 mapWrite = .ok ⟨0, [registerPage], ()⟩ := by decide +kernel
  refine ⟨hcall, (mapPhysical_confined_iff x86Addresses_laws _ _ _ _ _ _ _ _ _ hcall rfl).mpr ?_⟩
  intro x hlo hhi
  exact absurd hhi (not_lt.mpr hlo)

/-- A request for the half page maps the other half as well. -/
theorem mapPhysical_unconfined_half_page :
    syscallMapPhysical x86Addresses (fun (_ : Unit) _ _ => some ()) halfPageHolder (fun _ => 0) () 1 0x1000
      0x400000 0x800 mapWrite = .ok ⟨0, [registerPage], ()⟩ ∧
    ¬ Confined halfPageHolder 1 [registerPage] := by
  refine ⟨by decide +kernel, ?_⟩
  intro hc
  have hcov := hc.physical registerPage (List.mem_singleton_self _) 0x1800 (by decide) (by decide)
  obtain ⟨ids, hids, id, hid, e, hget, -, hhas⟩ := (covered_iff _ _ _).mp hcov
  obtain rfl : ids = [1] := by
    have : halfPageHolder.tasks 1 = some [1] := by decide +kernel
    exact Option.some.inj (hids.symm.trans this)
  obtain rfl : id = 1 := by simpa using hid
  have hentry : halfPageHolder.table.get 1 = some (.new (.mmioRegion 0x1000 0x800) 1) := by
    decide +kernel
  obtain rfl := Option.some.inj (hget.symm.trans hentry)
  exact absurd hhas (by decide)

end Folkering.Capability
