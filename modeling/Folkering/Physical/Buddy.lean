/-
  The buddy lists own what they list.

  The invariant `Owns` of the buddy allocator is relative to the REST of memory: the spans of every
  block somebody else owns (callers, bump arenas).  It says that each order's intrusive list is a
  proper list of well-placed blocks and that all of them, together with the rest, are a packing.  The
  two operations then MOVE a span between the lists and the rest:
    * `Lists.allocPages` — the span of a returned block joins the rest;
    * `Lists.freePages`  — the span of a freed block leaves it, and the call does not panic.
  Everything a split or a merge does to spans is a rearrangement, so both hold for any `Arrangement`
  (`OwnsAs`): for a packing, and for a tiling of the regions.  Everything they do to memory is
  `Linked.push` / `unlink_spec`.  Which blocks the lists gain and lose is said by `Takes` and `Gives`.
-/
import Folkering.Physical.System
import Mathlib.Data.List.Nodup
import Mathlib.Tactic.Ring

namespace Folkering.Physical

open Chain Word64 Spans List Function

/-! ## Blocks -/

theorem blockSize_pos (order : Nat) : 0 < blockSize order :=
  Nat.mul_pos (by decide) (Nat.two_pow_pos order)

theorem blockSize_succ (order : Nat) : blockSize (order + 1) = blockSize order + blockSize order := by
  rw [blockSize, Nat.pow_succ, ← Nat.mul_assoc, Nat.mul_two]
  rfl

theorem blockSize_eq_pow (order : Nat) : blockSize order = 2 ^ (12 + order) := by
  rw [blockSize, Nat.pow_add]
  rfl

theorem Block.has_addr (b : Block) : b.span.Has b.addr := by
  have := blockSize_pos b.order
  simp only [Block.span, Span.Has]
  omega

/-- Blocks that are apart start at different addresses. -/
theorem addr_ne_of_apart {b c : Block} (h : Apart b.span c.span) : b.addr ≠ c.addr := by
  intro he
  exact h b.addr ⟨b.has_addr, he ▸ c.has_addr⟩

theorem span_halves (addr order : Nat) :
    (Block.span ⟨addr, order + 1⟩) = ⟨addr, addr + blockSize order + blockSize order⟩ := by
  simp only [Block.span, blockSize_succ]
  congr 1
  omega

/-! ## The invariant -/

section

variable (hhdm : Nat) (regions : List Span)

/-- The spans of all listed blocks. -/
def freeSpans (fl : Nat → List Nat) : List Span :=
  flat (maxOrder + 1) (fun order addr => Block.span ⟨addr, order⟩) fl

/-- `fl order` is what the order's intrusive list stands for, as physical addresses. -/
structure Lists (s : BuddyAllocator) (fl : Nat → List Nat) : Prop where
  linked : ∀ order ≤ maxOrder, Linked s.mem (s.freeLists order) ((fl order).map (physToVirt hhdm))
  placed : ∀ order ≤ maxOrder, ∀ addr ∈ fl order, Placed regions ⟨addr, order⟩

/-- **The buddy invariant**, relative to the spans owned by everybody else. -/
def Owns (s : BuddyAllocator) (rest : List Span) : Prop :=
  ∃ fl, Lists hhdm regions s fl ∧ Packed (freeSpans fl ++ rest)

/-- The direct map reaches every block of the regions from the higher half. -/
def DirectMapped : Prop :=
  ∀ b, Placed regions b → higherHalf ≤ physToVirt hhdm b.addr ∧ hhdm ≤ physToVirt hhdm b.addr

/-- A block the direct map does not reach is dropped, which the arrangement then has to allow. -/
def MayDrop (C : List Span → Prop) : Prop :=
  DirectMapped hhdm regions ∨ ∀ l x, C (x :: l) → C l

end

/-- A direct map in the higher half reaches all regions that fit above it. -/
theorem directMapped_of_room {hhdm : Nat} {regions : List Span} (hhigh : higherHalf ≤ hhdm)
    (hroom : ∀ r ∈ regions, hhdm + r.hi ≤ 2 ^ 64) : DirectMapped hhdm regions := by
  rintro b ⟨-, r, hr, hw⟩
  have hlt : b.addr < r.hi := (hw.has b.has_addr).2
  have hvirt : physToVirt hhdm b.addr = hhdm + b.addr := by
    apply wadd_eq
    have := hroom r hr
    omega
  omega

section

variable {hhdm : Nat} {regions : List Span}

/-- Addresses of well-placed blocks are machine words. -/
theorem Placed.lt {addr order : Nat} (h : Placed regions ⟨addr, order⟩)
    (hr : ∀ r ∈ regions, r.hi < 2 ^ 64) : addr + blockSize order < 2 ^ 64 := by
  obtain ⟨-, r, hmem, hw⟩ := h
  have h1 := hr r hmem
  have h2 := hw.2
  simp only [Block.span] at h2
  omega

theorem virt_inj {a b : Nat} (ha : a < 2 ^ 64) (hb : b < 2 ^ 64)
    (h : physToVirt hhdm a = physToVirt hhdm b) : a = b := wadd_left_cancel ha hb h

theorem Placed.addr_lt {addr order : Nat} (h : Placed regions ⟨addr, order⟩)
    (hr : ∀ r ∈ regions, r.hi < 2 ^ 64) : addr < 2 ^ 64 := by
  have h1 := h.lt hr
  have h2 := blockSize_pos order
  omega

theorem Placed.has_lt {b : Block} (h : Placed regions b) (hr : ∀ r ∈ regions, r.hi < 2 ^ 64) {x : Nat}
    (hx : b.span.Has x) : x < 2 ^ 64 := by
  obtain ⟨-, r, hmem, hw⟩ := h
  exact (hw.has hx).2.trans (hr r hmem)

/-- Taking one address off one list takes one block out of all of them. -/
theorem freeSpans_take {fl : Nat → List Nat} {o a : Nat} {t : List Nat} (ho : o ≤ maxOrder)
    (h : (fl o).Perm (a :: t)) : (freeSpans fl).Perm (Block.span ⟨a, o⟩ :: freeSpans (update fl o t)) :=
  flat_take (Nat.lt_succ_of_le ho) h

theorem freeSpans_apart {fl : Nat → List Nat} {o o' a a' : Nat} (hp : Packed (freeSpans fl))
    (ho : o ≤ maxOrder) (ho' : o' ≤ maxOrder) (hne : o ≠ o') (ha : a ∈ fl o) (ha' : a' ∈ fl o') :
    Apart (Block.span ⟨a, o⟩) (Block.span ⟨a', o'⟩) := by
  have h := hp.perm (freeSpans_take ho (perm_cons_erase ha))
  rw [packed_cons] at h
  refine h.1 _ (mem_flat.mpr ⟨o', by omega, a', ?_, rfl⟩)
  rwa [update_of_ne (Ne.symm hne)]

/-- Within an order the listed addresses are different. -/
theorem fl_nodup {fl : Nat → List Nat} {o : Nat} (hp : Packed (freeSpans fl)) (ho : o ≤ maxOrder) : (fl o).Nodup := by
  have h := (pairwise_flatMap.mp hp).1 o (mem_range.mpr (by omega))
  rw [pairwise_map] at h
  exact h.imp fun hap => addr_ne_of_apart hap

/-- A block apart from every listed block is at a virtual address no list contains. -/
theorem virt_notMem {s : BuddyAllocator} {fl : Nat → List Nat} {b : Block} {o : Nat}
    (hr : ∀ r ∈ regions, r.hi < 2 ^ 64) (hl : Lists hhdm regions s fl) (ho : o ≤ maxOrder)
    (hb : b.addr < 2 ^ 64) (hap : ∀ a ∈ fl o, Apart b.span (Block.span ⟨a, o⟩)) :
    physToVirt hhdm b.addr ∉ (fl o).map (physToVirt hhdm) := by
  intro hmem
  obtain ⟨a, ha, he⟩ := mem_map.mp hmem
  have halt : a < 2 ^ 64 := (hl.placed o ho a ha).addr_lt hr
  exact addr_ne_of_apart (hap a ha) (virt_inj halt hb he).symm

/-! ## What the calls do to the lists -/

/-- **Allocation**: a block is taken off a list and halved until it has the order asked for; the upper halves are
    listed. -/
inductive Takes : (Nat → List Nat) → Nat → Nat → (Nat → List Nat) → Prop
  | pop {fl : Nat → List Nat} {order addr : Nat} {t : List Nat} (ho : order ≤ maxOrder)
      (h : (fl order).Perm (addr :: t)) : Takes fl order addr (update fl order t)
  | split {fl fl' : Nat → List Nat} {order addr : Nat} (ho : order ≤ maxOrder) (hal : blockSize (order + 1) ∣ addr)
      (h : Takes fl (order + 1) addr fl') : Takes fl order addr (update fl' order ((addr + blockSize order) :: fl' order))

/-- **Freeing**: a block is listed, or joined with a listed block into one that is freed in its place. -/
inductive Gives : (Nat → List Nat) → Block → (Nat → List Nat) → Prop
  | list {fl : Nat → List Nat} {b : Block} (ho : b.order ≤ maxOrder) :
      Gives fl b (update fl b.order (b.addr :: fl b.order))
  | merge {fl fl' : Nat → List Nat} {b m : Block} {a : Nat} {t : List Nat} (ho : b.order ≤ maxOrder)
      (h : (fl b.order).Perm (a :: t)) (hb : b.span.Within m.span) (ha : (Block.span ⟨a, b.order⟩).Within m.span)
      (hm : Gives (update fl b.order t) m fl') : Gives fl b fl'

section

variable {C : List Span → Prop} {s s' : BuddyAllocator} {fl : Nat → List Nat} {rest : List Span} {addr order : Nat}

/-- The invariant for any arrangement of the spans, with lists that satisfy `R` if the direct map reaches every block.
    `Owns` is the case of a packing. -/
def OwnsAs (hhdm : Nat) (regions : List Span) (C : List Span → Prop) (s : BuddyAllocator) (rest : List Span)
    (R : (Nat → List Nat) → Prop) : Prop :=
  ∃ fl, Lists hhdm regions s fl ∧ C (freeSpans fl ++ rest) ∧ (DirectMapped hhdm regions → R fl)

theorem OwnsAs.owns {R : (Nat → List Nat) → Prop} (h : OwnsAs hhdm regions Packed s rest R) :
    Owns hhdm regions s rest := by
  obtain ⟨fl, hl, hc, -⟩ := h
  exact ⟨fl, hl, hc⟩

/-- Only the pointers matter to the lists, not the counters. -/
theorem Lists.congr (h : Lists hhdm regions s fl) (hm : s'.mem = s.mem) (hf : s'.freeLists = s.freeLists) :
    Lists hhdm regions s' fl := ⟨by rw [hm, hf]; exact h.linked, h.placed⟩

/-! ## Putting a block on a list -/

theorem freeSpans_push (ho : order ≤ maxOrder) :
    (freeSpans (update fl order (addr :: fl order))).Perm (Block.span ⟨addr, order⟩ :: freeSpans fl) := by
  have hself : (update fl order (addr :: fl order) order).Perm (addr :: fl order) := by rw [update_self]
  have ht := freeSpans_take ho hself
  rwa [update_idem, update_eq_self] at ht

/-- A block apart from all listed ones becomes the head of its list. -/
theorem Lists.push (hr : ∀ r ∈ regions, r.hi < 2 ^ 64) (hl : Lists hhdm regions s fl)
    (hap : ∀ o ≤ maxOrder, ∀ a ∈ fl o, Apart (Block.span ⟨addr, order⟩) (Block.span ⟨a, o⟩))
    (hpl : Placed regions ⟨addr, order⟩) (hhigh : ¬ physToVirt hhdm addr < higherHalf) :
    Lists hhdm regions (freeBlockUnchecked hhdm s addr order) (update fl order (addr :: fl order)) := by
  unfold Physical.freeBlockUnchecked
  rw [if_neg hhigh]
  have hnot : ∀ o ≤ maxOrder, physToVirt hhdm addr ∉ (fl o).map (physToVirt hhdm) :=
    fun o hle => virt_notMem hr hl hle (b := ⟨addr, order⟩) (hpl.addr_lt hr) (hap o hle)
  refine ⟨fun o hle => ?_, fun o hle a ha => ?_⟩
  · by_cases he : o = order
    · subst he
      simp only [update_self, map_cons]
      exact (hl.linked o hle).push (hnot o hle)
    · simp only [update_of_ne he]
      exact (hl.linked o hle).update_of_notMem (hnot o hle)
  · by_cases he : o = order
    · subst he
      rw [update_self] at ha
      rcases mem_cons.mp ha with rfl | ha
      · exact hpl
      · exact hl.placed o hle a ha
    · rw [update_of_ne he] at ha
      exact hl.placed o hle a ha

/-- **Listing a block**: its span moves from the rest to the lists, or (a block with no higher-half
    address) is dropped. -/
theorem Lists.freeBlockUnchecked (hC : Arrangement C) (hm : MayDrop hhdm regions C)
    (hr : ∀ r ∈ regions, r.hi < 2 ^ 64) (hl : Lists hhdm regions s fl)
    (hc : C (freeSpans fl ++ Block.span ⟨addr, order⟩ :: rest)) (ho : order ≤ maxOrder)
    (hpl : Placed regions ⟨addr, order⟩) :
    OwnsAs hhdm regions C (freeBlockUnchecked hhdm s addr order) rest (· = update fl order (addr :: fl order)) := by
  by_cases hlow : physToVirt hhdm addr < higherHalf
  · have hnot : ¬ DirectMapped hhdm regions := fun hdm => absurd (hdm _ hpl).1 (by simpa using hlow)
    refine ⟨fl, ?_, hm.resolve_left hnot _ _ (hC.perm hc perm_middle), fun hdm => absurd hdm hnot⟩
    unfold Physical.freeBlockUnchecked
    rwa [if_pos hlow]
  · have hp := (hC.packed hc).perm perm_middle
    rw [packed_cons] at hp
    have hap : ∀ o ≤ maxOrder, ∀ a ∈ fl o, Apart (Block.span ⟨addr, order⟩) (Block.span ⟨a, o⟩) := fun o hle a ha =>
      hp.1 _ (mem_append_left _ (mem_flat.mpr ⟨o, by omega, a, ha, rfl⟩))
    exact ⟨_, hl.push hr hap hpl hlow,
      hC.perm hc (perm_middle.trans ((freeSpans_push ho).symm.append_right rest)), fun _ => rfl⟩

/-! ## Rearranging the rest -/

theorem packed_middle {l l' : List Span} {x : Span} : Packed (l ++ x :: l') ↔ Packed (x :: (l ++ l')) :=
  ⟨fun h => h.perm perm_middle, fun h => h.perm perm_middle.symm⟩

/-- A block of the rest is halved; the upper half comes first. -/
theorem halve (hC : Arrangement C) (h : C (freeSpans fl ++ Block.span ⟨addr, order + 1⟩ :: rest)) :
    C (freeSpans fl ++ Block.span ⟨addr + blockSize order, order⟩ :: Block.span ⟨addr, order⟩ :: rest) := by
  have hfront := hC.perm h perm_middle
  rw [span_halves] at hfront
  have hs := hC.split (m := addr + blockSize order) hfront (by omega) (by omega)
  exact hC.perm hs ((List.Perm.swap _ _ _).trans (perm_middle.trans (perm_middle.cons _)).symm)

/-- Two buddies of the rest become one block. -/
theorem unite (hC : Arrangement C)
    (h : C (freeSpans fl ++ Block.span ⟨addr, order⟩ :: Block.span ⟨addr + blockSize order, order⟩ :: rest)) :
    C (freeSpans fl ++ Block.span ⟨addr, order + 1⟩ :: rest) := by
  refine hC.perm ?_ perm_middle.symm
  rw [span_halves]
  refine hC.join (m := addr + blockSize order) (by omega) (by omega) ?_
  exact hC.perm h (perm_middle.trans (perm_middle.cons _))

/-! ## Taking a block off a list -/

/-- A block that leaves its list joins the rest. -/
theorem unlisted {t : List Nat} (hC : Arrangement C) (hc : C (freeSpans fl ++ rest)) (ho : order ≤ maxOrder)
    (h : (fl order).Perm (addr :: t)) : C (freeSpans (update fl order t) ++ Block.span ⟨addr, order⟩ :: rest) :=
  hC.perm hc (((freeSpans_take ho h).append_right rest).trans perm_middle.symm)

/-- **Unlisting**: the pointers change so that one order's list is `t` and the other lists stay. -/
theorem Lists.unlist {t : List Nat} (hl : Lists hhdm regions s fl) (hsub : ∀ a ∈ t, a ∈ fl order)
    (hself : Linked s'.mem (s'.freeLists order) (t.map (physToVirt hhdm)))
    (hother : ∀ o ≤ maxOrder, o ≠ order → Linked s'.mem (s'.freeLists o) ((fl o).map (physToVirt hhdm))) :
    Lists hhdm regions s' (update fl order t) := by
  refine ⟨fun o hle => ?_, fun o hle a ha => ?_⟩
  · by_cases he : o = order
    · subst he
      rwa [update_self]
    · rw [update_of_ne he]
      exact hother o hle he
  · by_cases he : o = order
    · subst he
      rw [update_self] at ha
      exact hl.placed o hle a (hsub a ha)
    · rw [update_of_ne he] at ha
      exact hl.placed o hle a ha

/-- Popping the head of an order's list. -/
theorem Lists.pop {ptr : Nat} (hl : Lists hhdm regions s fl) (ho : order ≤ maxOrder)
    (hhead : s.freeLists order = some ptr) :
    ∃ addr t, fl order = addr :: t ∧ physToVirt hhdm addr = ptr ∧ Placed regions ⟨addr, order⟩ ∧
      ∀ n, Lists hhdm regions { s with freeLists := update s.freeLists order (s.mem ptr), freePages := n }
        (update fl order t) := by
  have hlink := hl.linked order ho
  rw [hhead] at hlink
  obtain ⟨tv, hmap, htail⟩ := chain_some_iff.mp hlink
  obtain ⟨addr, t, hfl, hptr, rfl⟩ := map_eq_cons_iff.mp hmap
  refine ⟨addr, t, hfl, hptr, hl.placed order ho addr (by rw [hfl]; exact mem_cons_self), fun n => ?_⟩
  refine hl.unlist (fun a ha => by rw [hfl]; exact mem_cons_of_mem _ ha) ?_ fun o hle hne => ?_
  · simp only [update_self]
    exact htail
  · simp only [update_of_ne hne]
    exact hl.linked o hle

/-- What `virt_to_phys` makes of the pointer of a listed block. -/
theorem virtToPhys_virt {addr x : Nat} (hh : hhdm < 2 ^ 64) (ha : addr < 2 ^ 64)
    (h : virtToPhys hhdm (physToVirt hhdm addr) = some x) : x = addr := by
  have hv : physToVirt hhdm addr = (hhdm + addr) % 2 ^ 64 := rfl
  unfold virtToPhys at h
  by_cases hle : hhdm ≤ physToVirt hhdm addr
  · rw [if_pos hle, Option.some.injEq] at h
    omega
  · rw [if_neg hle] at h
    cases h

/-! ## Allocation -/

theorem Placed.left {addr order : Nat} (h : Placed regions ⟨addr, order + 1⟩) : Placed regions ⟨addr, order⟩ := by
  obtain ⟨hdvd, r, hmem, hw⟩ := h
  have hhalf : blockSize order ∣ blockSize (order + 1) := Dvd.intro_left 2 (by
    rw [blockSize_succ]
    omega)
  refine ⟨hhalf.trans hdvd, r, hmem, hw.1, ?_⟩
  have := hw.2
  simp only [Block.span, blockSize_succ] at this ⊢
  omega

theorem Placed.right {addr order : Nat} (h : Placed regions ⟨addr, order + 1⟩) :
    Placed regions ⟨addr + blockSize order, order⟩ := by
  have hleft := h.left.1
  obtain ⟨-, r, hmem, hw⟩ := h
  refine ⟨(Nat.dvd_add_iff_left (Nat.dvd_refl _)).mp hleft, r, hmem, ?_, ?_⟩
  · have := hw.1
    simp only [Block.span] at this ⊢
    omega
  · have := hw.2
    simp only [Block.span, blockSize_succ] at this ⊢
    omega

/-- **Allocation moves a span to the rest**: a returned block is well placed and from now on owned by
    somebody else; without a block nothing is given away. -/
theorem Lists.allocPages (hC : Arrangement C) (hm : MayDrop hhdm regions C) (hh : hhdm < 2 ^ 64)
    (hr : ∀ r ∈ regions, r.hi < 2 ^ 64) (hl : Lists hhdm regions s fl) (hc : C (freeSpans fl ++ rest)) :
    ∀ fuel order, match s.allocPages hhdm fuel order with
      | (some addr, s') => Placed regions ⟨addr, order⟩ ∧
        OwnsAs hhdm regions C s' (Block.span ⟨addr, order⟩ :: rest) (Takes fl order addr)
      | (none, s') => OwnsAs hhdm regions C s' rest (· = fl) := by
  intro fuel
  induction fuel with
  | zero => exact fun order => ⟨fl, hl, hc, fun _ => rfl⟩
  | succ fuel ih =>
    intro order
    unfold BuddyAllocator.allocPages
    by_cases hmax : maxOrder < order
    · rw [if_pos hmax]
      exact ⟨fl, hl, hc, fun _ => rfl⟩
    rw [if_neg hmax]
    have ho : order ≤ maxOrder := by omega
    cases hhead : s.freeLists order with
    | some ptr =>
      -- pop: the pointer is the direct-map address of a listed block
      obtain ⟨addr, t, hfl, hptr, hpl, hl'⟩ := hl.pop ho hhead
      have hc' := unlisted hC hc ho (t := t) (by rw [hfl])
      simp only
      cases hv : virtToPhys hhdm ptr with
      | some x =>
        have hx : x = addr := virtToPhys_virt hh (hpl.addr_lt hr) (by rw [hptr]; exact hv)
        subst hx
        exact ⟨hpl, _, hl' _, hc', fun _ => .pop ho (by rw [hfl])⟩
      | none =>
        -- a pointer below the direct map: its block is dropped
        have hnot : ¬ DirectMapped hhdm regions := by
          intro hdm
          have hle := (hdm _ hpl).2
          rw [hptr] at hle
          rw [virtToPhys, if_pos hle] at hv
          cases hv
        exact ⟨_, hl' _, hm.resolve_left hnot _ _ (hC.perm hc' perm_middle), fun hdm => absurd hdm hnot⟩
    | none =>
      by_cases hlt : order < maxOrder
      · simp only [if_pos hlt]
        have hbig := ih (order + 1)
        cases hres : s.allocPages hhdm fuel (order + 1) with
        | mk r s' =>
          rw [hres] at hbig
          cases r with
          | none => exact hbig
          | some addr =>
            -- split: the upper half goes on the list, the lower half is handed out
            obtain ⟨hpl, fl₁, hl₁, hc₁, htakes⟩ := hbig
            have hfit := hpl.lt hr
            rw [blockSize_succ] at hfit
            have hpos := blockSize_pos order
            have hbuddy : wadd addr (2 ^ order * pageSize) = addr + blockSize order := by
              rw [Nat.mul_comm, ← blockSize, wadd_eq (by omega)]
            simp only [hbuddy]
            obtain ⟨fl₂, hl₂, hc₂, heq⟩ := hl₁.freeBlockUnchecked hC hm hr (halve hC hc₁) ho hpl.right
            refine ⟨hpl.left, fl₂, hl₂.congr rfl rfl, hc₂, fun hdm => ?_⟩
            rw [heq hdm]
            exact .split ho hpl.1 (htakes hdm)
      · simp only [if_neg hlt]
        exact ⟨fl, hl, hc, fun _ => rfl⟩

/-! ## Freeing -/

theorem map_erase_of_inj {l : List Nat} {f : Nat → Nat} {x : Nat}
    (hinj : ∀ a ∈ l, f a = f x → a = x) : (l.map f).erase (f x) = (l.erase x).map f := by
  induction l with
  | nil => rfl
  | cons a l ih =>
    have ih := ih fun b hb => hinj b (mem_cons_of_mem _ hb)
    by_cases hax : a = x
    · subst hax
      rw [map_cons, erase_cons_head, erase_cons_head]
    · have hf : f a ≠ f x := fun he => hax (hinj a mem_cons_self he)
      rw [map_cons, erase_cons_tail (by simpa using hf),
        erase_cons_tail (by simpa using hax), map_cons, ih]

/-- A block of the rest is not found on a list, so a legitimate free is never taken for a double
    free. -/
theorem Lists.not_isBlockFree (hC : Arrangement C) (hr : ∀ r ∈ regions, r.hi < 2 ^ 64) (hl : Lists hhdm regions s fl)
    (hc : C (freeSpans fl ++ Block.span ⟨addr, order⟩ :: rest)) (ho : order ≤ maxOrder)
    (hpl : Placed regions ⟨addr, order⟩) : isBlockFree hhdm s addr order = false := by
  have hp := hC.packed hc
  rw [packed_middle, packed_cons] at hp
  rw [Bool.eq_false_iff]
  intro hf
  have hmem := mem_of_holds (hl.linked order ho) hf
  refine virt_notMem hr hl ho (b := ⟨addr, order⟩) (hpl.addr_lt hr) ?_ hmem
  exact fun a ha => hp.1 _ (mem_append_left _ (mem_flat.mpr ⟨order, by omega, a, ha, rfl⟩))

/-- **Removing a block found on a list**: the walk succeeds, and the list loses the block. -/
theorem Lists.removeFromFreeList (hr : ∀ r ∈ regions, r.hi < 2 ^ 64) (hl : Lists hhdm regions s fl)
    (hpf : Packed (freeSpans fl)) (ho : order ≤ maxOrder) (halt : addr < 2 ^ 64)
    (hf : isBlockFree hhdm s addr order = true) :
    addr ∈ fl order ∧ ∃ s', removeFromFreeList hhdm s addr order = .ok s' ∧
      Lists hhdm regions s' (update fl order ((fl order).erase addr)) := by
  have hlink := hl.linked order ho
  have hinj : ∀ a ∈ fl order, physToVirt hhdm a = physToVirt hhdm addr → a = addr :=
    fun a ha he => virt_inj ((hl.placed order ho a ha).addr_lt hr) halt he
  -- the block found is the block asked for
  have hmem : addr ∈ fl order := by
    obtain ⟨a, ha, he⟩ := mem_map.mp (mem_of_holds hlink hf)
    exact hinj a ha he ▸ ha
  have hnd : ((fl order).map (physToVirt hhdm)).Nodup := by
    refine (nodup_map_iff_inj_on (fl_nodup hpf ho)).mpr fun a ha b hb he => ?_
    exact virt_inj ((hl.placed order ho a ha).addr_lt hr) ((hl.placed order ho b hb).addr_lt hr) he
  have hsub : ∀ a ∈ (fl order).erase addr, a ∈ fl order := fun a ha => mem_of_mem_erase ha
  refine ⟨hmem, ?_⟩
  unfold Physical.removeFromFreeList
  rcases unlink_spec hlink hnd hf with ⟨t, hu, hch⟩ | ⟨q, t, hu, hq, hch⟩
  · -- the block was the head of its list
    rw [hu]
    rw [map_erase_of_inj hinj] at hch
    refine ⟨_, rfl, hl.unlist hsub ?_ fun o hle hne => ?_⟩
    · simpa only [update_self] using hch
    · simpa only [update_of_ne hne] using hl.linked o hle
  · -- the cell before it is rewritten; no other list has that cell
    rw [hu]
    rw [map_erase_of_inj hinj] at hch
    refine ⟨_, rfl, hl.unlist hsub hch fun o hle hne => ?_⟩
    obtain ⟨a, ha, rfl⟩ := mem_map.mp hq
    have hapl := (hl.placed order ho a ha).addr_lt hr
    exact (hl.linked o hle).update_of_notMem (virt_notMem hr hl hle (b := ⟨a, order⟩) hapl
      fun a' ha' => freeSpans_apart hpf ho hle (Ne.symm hne) ha ha')

/-- Two buddies in the regions merge into a block of ONE region: were they in two, the regions would
    touch between them, which they only do at multiples of the largest block. -/
theorem Placed.merge {lo order : Nat} (hpk : Packed regions) (ht : TouchAtMaxBlocks regions)
    (ho : order < maxOrder) (hal : blockSize (order + 1) ∣ lo) (h1 : Placed regions ⟨lo, order⟩)
    (h2 : Placed regions ⟨lo + blockSize order, order⟩) : Placed regions ⟨lo, order + 1⟩ := by
  obtain ⟨-, r1, hm1, hw1⟩ := h1
  obtain ⟨-, r2, hm2, hw2⟩ := h2
  have hpos := blockSize_pos order
  simp only [Span.Within, Block.span] at hw1 hw2
  by_cases he : r1 = r2
  · subst he
    refine ⟨hal, r1, hm1, ?_⟩
    simp only [Span.Within, Block.span, blockSize_succ]
    omega
  · exfalso
    have hap : Apart r1 r2 := hpk.forall hm1 hm2 he
    rw [apart_iff (by omega) (by omega)] at hap
    have htouch : r1.hi = r2.lo := by omega
    have hmid : r1.hi = lo + blockSize order := by omega
    have hdvd := ht r1 hm1 r2 hm2 htouch
    have hup : blockSize (order + 1) ∣ blockSize maxOrder := by
      rw [blockSize_eq_pow, blockSize_eq_pow]
      exact Nat.pow_dvd_pow 2 (by omega)
    rw [hmid] at hdvd
    have hhalf : blockSize (order + 1) ∣ blockSize order :=
      (Nat.dvd_add_right hal).mp (hup.trans hdvd)
    have := Nat.le_of_dvd hpos hhalf
    rw [blockSize_succ] at this
    omega

/-- Where the buddy of an aligned block is: right after it or right before it. -/
theorem buddyAddress_cases {addr order : Nat} (hal : blockSize order ∣ addr) :
    (buddyAddress addr order = addr + blockSize order ∧ blockSize (order + 1) ∣ addr) ∨
    (addr = buddyAddress addr order + blockSize order ∧ blockSize (order + 1) ∣ buddyAddress addr order) := by
  obtain ⟨q, rfl⟩ := hal
  unfold buddyAddress
  rw [← blockSize, blockSize_eq_pow, blockSize_succ, blockSize_eq_pow, Nat.mul_comm _ q]
  rcases Nat.mod_two_eq_zero_or_one q with hq | hq
  · left
    rw [xor_two_pow_of_even hq]
    refine ⟨by rw [Nat.succ_mul], ⟨q / 2, ?_⟩⟩
    obtain ⟨m, rfl⟩ : ∃ m, q = 2 * m := ⟨q / 2, by omega⟩
    rw [show 2 * m / 2 = m from by omega, ← Nat.two_mul]
    ring
  · right
    rw [xor_two_pow_of_odd hq]
    obtain ⟨m, rfl⟩ : ∃ m, q = 2 * m + 1 := ⟨q / 2, by omega⟩
    rw [show 2 * m + 1 - 1 = 2 * m from by omega]
    refine ⟨by ring, ⟨m, by ring⟩⟩

theorem buddyAddress_lt (hr : ∀ r ∈ regions, r.hi < 2 ^ 64) (ho : order ≤ maxOrder)
    (hpl : Placed regions ⟨addr, order⟩) : buddyAddress addr order < 2 ^ 64 := by
  refine Nat.xor_lt_two_pow (hpl.addr_lt hr) ?_
  rw [← blockSize]
  have hle : blockSize order ≤ blockSize maxOrder := by
    rw [blockSize_eq_pow, blockSize_eq_pow]
    exact Nat.pow_le_pow_right (by omega) (by omega)
  exact Nat.lt_of_le_of_lt hle (by decide)

/-- The block and its buddy, both of the rest, as the block they merge into. -/
theorem merged (hC : Arrangement C) (hpk : Packed regions) (ht : TouchAtMaxBlocks regions) (hlt : order < maxOrder)
    (hpl : Placed regions ⟨addr, order⟩) (hbpl : Placed regions ⟨buddyAddress addr order, order⟩)
    (hc : C (freeSpans fl ++ Block.span ⟨buddyAddress addr order, order⟩ :: Block.span ⟨addr, order⟩ :: rest)) :
    Placed regions ⟨min addr (buddyAddress addr order), order + 1⟩ ∧
      (Block.span ⟨addr, order⟩).Within (Block.span ⟨min addr (buddyAddress addr order), order + 1⟩) ∧
      (Block.span ⟨buddyAddress addr order, order⟩).Within
        (Block.span ⟨min addr (buddyAddress addr order), order + 1⟩) ∧
      C (freeSpans fl ++ Block.span ⟨min addr (buddyAddress addr order), order + 1⟩ :: rest) := by
  have hsucc := blockSize_succ order
  have hdvd : blockSize order ∣ addr := hpl.1
  rcases buddyAddress_cases hdvd with ⟨hb, hal⟩ | ⟨hb, hal⟩
  · -- the buddy is the upper half
    rw [hb] at hbpl hc ⊢
    rw [Nat.min_eq_left (by omega)]
    refine ⟨hpl.merge hpk ht hlt hal hbpl, ?_, ?_, unite hC (hC.perm hc ((List.Perm.swap _ _ _).append_left _))⟩ <;>
      simp only [Span.Within, Block.span] <;> omega
  · -- the buddy is the lower half
    rw [Nat.min_eq_right (by omega)]
    generalize buddyAddress addr order = buddy at *
    subst hb
    refine ⟨hbpl.merge hpk ht hlt hal hpl, ?_, ?_, unite hC hc⟩ <;> simp only [Span.Within, Block.span] <;> omega

/-- **Freeing moves a span to the lists**, merging as far as it can; a block the caller really owned
    never panics. -/
theorem Lists.freePages (hC : Arrangement C) (hm : MayDrop hhdm regions C)
    (hr : ∀ r ∈ regions, r.hi < 2 ^ 64) (hpk : Packed regions) (ht : TouchAtMaxBlocks regions) :
    ∀ (fuel : Nat) (s : BuddyAllocator) (fl : Nat → List Nat) (addr order : Nat), order ≤ maxOrder →
      maxOrder < fuel + order → Placed regions ⟨addr, order⟩ → Lists hhdm regions s fl →
      C (freeSpans fl ++ Block.span ⟨addr, order⟩ :: rest) → ∃ s', s.freePagesAt hhdm fuel addr order = .ok s' ∧
        OwnsAs hhdm regions C s' rest (Gives fl ⟨addr, order⟩) := by
  intro fuel
  induction fuel with
  | zero => intro s fl addr order ho hfuel; omega
  | succ fuel ih =>
    intro s fl addr order ho hfuel hpl hl hc
    unfold BuddyAllocator.freePagesAt
    rw [if_neg (by omega), hl.not_isBlockFree hC hr hc ho hpl, if_neg (by simp)]
    by_cases hmerge : order < maxOrder ∧ isBlockFree hhdm s (buddyAddress addr order) order = true
    · simp only [if_pos hmerge]
      obtain ⟨hlt, hf⟩ := hmerge
      have hpf : Packed (freeSpans fl) := (hC.packed hc).sublist (sublist_append_left _ _)
      obtain ⟨hmem, s₁, hs₁, hl₁⟩ := hl.removeFromFreeList hr hpf ho (buddyAddress_lt hr ho hpl) hf
      have hperm := perm_cons_erase hmem
      obtain ⟨hplm, hin, hbin, hc₁⟩ := merged hC hpk ht hlt hpl (hl.placed order ho _ hmem) (unlisted hC hc ho hperm)
      rw [hs₁]
      obtain ⟨s₂, hs₂, fl₂, hl₂, hc₂, hgives⟩ := ih { s₁ with freePages := wsub s₁.freePages (2 ^ order) } _ _ _
        (by omega) (by omega) hplm (hl₁.congr rfl rfl) hc₁
      exact ⟨s₂, hs₂, fl₂, hl₂, hc₂, fun hdm => .merge ho hperm hin hbin (hgives hdm)⟩
    · rw [if_neg hmerge]
      obtain ⟨fl₁, hl₁, hc₁, heq⟩ := hl.freeBlockUnchecked hC hm hr hc ho hpl
      refine ⟨_, rfl, fl₁, hl₁.congr rfl rfl, hc₁, fun hdm => ?_⟩
      rw [heq hdm]
      exact .list ho

end

/-! ## The packing

  A packing survives the loss of a span, so here the direct map is not asked to reach everything. -/

theorem mayDrop_packed : MayDrop hhdm regions Packed :=
  Or.inr fun _ x h => h.sublist (sublist_cons_self x _)

theorem Owns.allocPages (hh : hhdm < 2 ^ 64) (hr : ∀ r ∈ regions, r.hi < 2 ^ 64)
    (fuel : Nat) (s : BuddyAllocator) (order : Nat) (rest : List Span) (h : Owns hhdm regions s rest) :
    match s.allocPages hhdm fuel order with
    | (some addr, s') =>
      Placed regions ⟨addr, order⟩ ∧ Owns hhdm regions s' (Block.span ⟨addr, order⟩ :: rest)
    | (none, s') => Owns hhdm regions s' rest := by
  obtain ⟨fl, hl, hc⟩ := h
  have hafter := hl.allocPages .of_packed mayDrop_packed hh hr hc fuel order
  cases hres : s.allocPages hhdm fuel order with
  | mk r s' =>
    rw [hres] at hafter
    cases r with
    | none => exact hafter.owns
    | some addr => exact ⟨hafter.1, hafter.2.owns⟩

theorem Owns.freePages (hr : ∀ r ∈ regions, r.hi < 2 ^ 64) (hpk : Packed regions)
    (ht : TouchAtMaxBlocks regions) (fuel : Nat) (s : BuddyAllocator) (addr order : Nat)
    (rest : List Span) (ho : order ≤ maxOrder) (hfuel : maxOrder < fuel + order)
    (hpl : Placed regions ⟨addr, order⟩) (h : Owns hhdm regions s (Block.span ⟨addr, order⟩ :: rest)) :
    ∃ s', s.freePagesAt hhdm fuel addr order = .ok s' ∧ Owns hhdm regions s' rest := by
  obtain ⟨fl, hl, hc⟩ := h
  obtain ⟨s', hs', hown⟩ := Lists.freePages .of_packed mayDrop_packed hr hpk ht fuel s fl addr order ho hfuel hpl hl hc
  exact ⟨s', hs', hown.owns⟩

end

end Folkering.Physical
