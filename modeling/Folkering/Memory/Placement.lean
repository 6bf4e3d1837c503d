/-
  Where `mmap` places a mapping when the caller gives no address (syscall/handlers/memory.rs).

  One counter and one list of recycled ranges serve every task.  The addresses they may hand out are the FREE RANGES:
  what lies between the counter and the limit, and the entries of the list.  As long as
    * the free ranges are apart, and
    * no task has a page in one of them,
  automatic placement finds free addresses.  An automatic `mmap` takes a range out and keeps both.  The other calls can
  break them:
    * a hint may lie in a free range;
    * `munmap` records the start of its range and the NUMBER of pages it freed, whichever pages those were, and it does
      so although another task may have a page there.
  `Places` says when a call does neither, and `placement_run` that then every run is fine.
-/
import Folkering.Memory.Frames
import Folkering.Memory.Programs

namespace Folkering.Memory

open Spans List

variable {α : Type} {A : Platform α} {k k' : Kernel α}

/-! ## Free ranges -/

/-- Automatic placement ends here. -/
def mmapLimit : Nat := 0x7FFF00000000

/-- The addresses of an entry of the list. -/
def entrySpan (e : Nat × Nat) : Span := ⟨e.1, e.1 + e.2 * 4096⟩

/-- The addresses that automatic placement may hand out. -/
def freeRanges (k : Kernel α) : List Span := ⟨k.nextMmapAddr, mmapLimit⟩ :: k.freelist.entries.map entrySpan

/-- A user address at which no task has a page of either size. -/
def Clear (k : Kernel α) (x : Nat) : Prop :=
  x < 2 ^ 47 ∧ ∀ t huge, (k.halves (some t)).leaves (pageAround huge x) = none

/-- Spans that are apart and have only addresses of `U`. -/
def PackedIn (U : Nat → Prop) (l : List Span) : Prop := Packed l ∧ ∀ s ∈ l, ∀ x, s.Has x → U x

/-- Such spans can be split, joined and permuted. -/
theorem Arrangement.of_packedIn (U : Nat → Prop) : Arrangement (PackedIn U) where
  packed h := h.1
  perm h hp := ⟨h.1.perm hp, fun s hs => h.2 s (hp.mem_iff.mpr hs)⟩
  split h h1 h2 := by
    refine ⟨h.1.split h1 h2, fun s hs x hx => ?_⟩
    obtain ⟨t, ht, hxt⟩ := (has_split h1 h2).mp ⟨s, hs, hx⟩
    exact h.2 t ht x hxt
  join h1 h2 h := by
    refine ⟨h.1.join, fun s hs x hx => ?_⟩
    obtain ⟨t, ht, hxt⟩ := (has_split h1 h2).mpr ⟨s, hs, hx⟩
    exact h.2 t ht x hxt

/-- An entry of the list in the user half. -/
def EntryFits (e : Nat × Nat) : Prop := e.1 % 4096 = 0 ∧ e.1 + e.2 * 4096 ≤ 2 ^ 47

/-- The free ranges are apart, clear, and start at pages. -/
structure Placement (k : Kernel α) : Prop where
  free : PackedIn (Clear k) (freeRanges k)
  counter : k.nextMmapAddr % 4096 = 0
  entries : ∀ e ∈ k.freelist.entries, EntryFits e

/-! ## The list -/

/-- Two ranges in a row, as one entry; in the user half the sum does not wrap. -/
theorem entrySpan_join {a m n b : Nat} (h : a + m * 4096 = b) (hend : b + n * 4096 ≤ 2 ^ 47) :
    entrySpan (a, (m + n) % 2 ^ 64) = ⟨a, b + n * 4096⟩ := by
  rw [Nat.mod_eq_of_lt (by omega), entrySpan, ← h, Nat.add_mul, Nat.add_assoc]

section

variable {C : List Span → Prop} {rest : List Span}

/-- A range that is merged with an entry. -/
theorem coalesce_spans (hC : Arrangement C) {addr pages : Nat} (hend : addr + pages * 4096 ≤ 2 ^ 47) :
    ∀ {l l' : List (Nat × Nat)} {rest : List Span}, (∀ e ∈ l, e.1 + e.2 * 4096 ≤ 2 ^ 47) →
      MmapFreelist.coalesce addr pages l = some l' → C (entrySpan (addr, pages) :: (l.map entrySpan ++ rest)) →
      C (l'.map entrySpan ++ rest) ∧ ∀ e ∈ l', e ∈ l ∨ (e.1 = addr ∨ ∃ e' ∈ l, e.1 = e'.1) ∧ e.1 + e.2 * 4096 ≤ 2 ^ 47
  | [], _, _, _, h, _ => by cases h
  | e :: l, l', rest, hle, h, hspans => by
    have he := hle e mem_cons_self
    unfold MmapFreelist.coalesce at h
    split_ifs at h with hbelow habove
    · -- the range ends where the entry starts
      rw [pageAt_of_lt (by omega)] at hbelow
      cases h
      have hspan := entrySpan_join hbelow he
      rw [map_cons, hspan]
      refine ⟨hC.join (m := e.1) (by omega) (by omega) ?_, fun e' he' => ?_⟩
      · have hfirst : entrySpan (addr, pages) = ⟨addr, e.1⟩ := by rw [entrySpan, hbelow]
        rw [hfirst] at hspans
        exact hspans
      · rcases mem_cons.mp he' with rfl | he'
        · exact .inr ⟨.inl rfl, (congrArg Span.hi hspan).trans_le he⟩
        · exact .inl (mem_cons_of_mem _ he')
    · -- the range starts where the entry ends
      rw [pageAt_of_lt (by omega)] at habove
      cases h
      have hspan := entrySpan_join habove hend
      rw [map_cons, hspan]
      refine ⟨hC.join (m := addr) (by omega) (by omega) ?_, fun e' he' => ?_⟩
      · have hfirst : entrySpan e = ⟨e.1, addr⟩ := by rw [entrySpan, habove]
        rw [← hfirst]
        exact hC.perm hspans (List.Perm.swap _ _ _)
      · rcases mem_cons.mp he' with rfl | he'
        · exact .inr ⟨.inr ⟨e, mem_cons_self, rfl⟩, (congrArg Span.hi hspan).trans_le hend⟩
        · exact .inl (mem_cons_of_mem _ he')
    · obtain ⟨l'', hrec, rfl⟩ := Option.map_eq_some_iff.mp h
      have hmove : C (entrySpan (addr, pages) :: (l.map entrySpan ++ entrySpan e :: rest)) :=
        hC.perm hspans (List.Perm.cons _ perm_middle.symm)
      obtain ⟨hout, hmem⟩ := coalesce_spans hC hend (fun e' he' => hle e' (mem_cons_of_mem _ he')) hrec hmove
      refine ⟨hC.perm hout perm_middle, fun e' he' => ?_⟩
      rcases mem_cons.mp he' with rfl | he'
      · exact .inl mem_cons_self
      · rcases hmem e' he' with hold | ⟨hstart, hend⟩
        · exact .inl (mem_cons_of_mem _ hold)
        · refine .inr ⟨?_, hend⟩
          rcases hstart with heq | ⟨e'', he'', heq⟩
          · exact .inl heq
          · exact .inr ⟨e'', mem_cons_of_mem _ he'', heq⟩

/-- The list with one entry replaced, up to order. -/
theorem popFit_entries {l l' : MmapFreelist} {needed addr : Nat} (h : l.popFit needed = some (addr, l')) :
    ∃ e others, l.entries.Perm (e :: others) ∧ addr = e.1 ∧ needed ≤ e.2 ∧
      (l'.entries.Perm ((pageAt e.1 needed, e.2 - needed) :: others) ∨ e.2 = needed ∧ l'.entries.Perm others) := by
  unfold MmapFreelist.popFit at h
  cases hidx : l.entries.findIdx? fun e => needed ≤ e.2 with
  | none =>
    rw [hidx] at h
    cases h
  | some i =>
    rw [hidx] at h
    obtain ⟨hi, hfit, -⟩ := findIdx?_eq_some_iff_getElem.mp hidx
    have hget : l.entries.getD i (0, 0) = l.entries[i] := getD_eq_getElem _ _ hi
    simp only [hget] at h
    refine ⟨l.entries[i], l.entries.eraseIdx i, (getElem_cons_eraseIdx_perm hi).symm, ?_, by simpa using hfit, ?_⟩
    · split_ifs at h <;> cases h <;> rfl
    · have hle : needed ≤ l.entries[i].2 := by simpa using hfit
      split_ifs at h with hleft
      · cases h
        exact .inl (set_perm_cons_eraseIdx hi _)
      · cases h
        refine .inr ⟨by omega, ?_⟩
        -- the last entry takes the place of the one that is gone
        obtain ⟨front, last, hlast⟩ : ∃ front last, l.entries = front ++ [last] :=
          ⟨_, _, (dropLast_append_getLast (ne_nil_of_length_pos (by omega))).symm⟩
        have hgetLast : l.entries.getLastD (0, 0) = last := by rw [hlast, getLastD_concat]
        simp only [hgetLast]
        have hset := set_perm_cons_eraseIdx hi last
        have hsplit : l.entries.set i last = (l.entries.set i last).dropLast ++ [last] := by
          rw [hlast, length_append, length_singleton] at hi
          rw [hlast, set_append]
          split
          · rw [dropLast_concat]
          · rw [show i - front.length = 0 from by omega, set_cons_zero, dropLast_concat]
        rw [hsplit] at hset
        exact (List.perm_cons last).mp ((perm_append_singleton last _).symm.trans hset)

/-- A recycled range is cut out of the list. -/
theorem popFit_spans (hC : Arrangement C) {l l' : MmapFreelist} {needed addr : Nat}
    (hfits : ∀ e ∈ l.entries, EntryFits e) (h : l.popFit needed = some (addr, l')) (hspans : C (l.entries.map entrySpan ++ rest)) :
    C (⟨addr, addr + needed * 4096⟩ :: (l'.entries.map entrySpan ++ rest)) ∧ (∀ e ∈ l'.entries, EntryFits e) ∧
      EntryFits (addr, needed) := by
  obtain ⟨e, others, hperm, rfl, hle, hcases⟩ := popFit_entries h
  obtain ⟨halign, hend⟩ := hfits e (hperm.mem_iff.mpr mem_cons_self)
  have hothers : ∀ e' ∈ others, EntryFits e' := fun e' he' => hfits e' (hperm.mem_iff.mpr (mem_cons_of_mem _ he'))
  have hspans : C (entrySpan e :: (others.map entrySpan ++ rest)) := hC.perm hspans ((hperm.map entrySpan).append_right rest)
  have hcut : e.1 + needed * 4096 ≤ e.1 + e.2 * 4096 := Nat.add_le_add_left (Nat.mul_le_mul_right _ hle) _
  rcases hcases with hperm' | ⟨heq, hperm'⟩
  · have hpage : pageAt e.1 needed = e.1 + needed * 4096 := pageAt_of_lt (by omega)
    have hhi : e.1 + needed * 4096 + (e.2 - needed) * 4096 = e.1 + e.2 * 4096 := by
      rw [Nat.add_assoc, ← Nat.add_mul, Nat.add_sub_cancel' hle]
    have hspan : entrySpan (pageAt e.1 needed, e.2 - needed) = ⟨e.1 + needed * 4096, e.1 + e.2 * 4096⟩ := by
      rw [entrySpan, hpage, hhi]
    refine ⟨hC.perm (hC.split hspans (Nat.le_add_right _ _) hcut) (List.Perm.cons _ ?_), fun e' he' => ?_,
      halign, hcut.trans hend⟩
    · rw [← hspan]
      exact ((hperm'.map entrySpan).append_right rest).symm
    · rcases mem_cons.mp (hperm'.mem_iff.mp he') with rfl | he'
      · exact ⟨pageAt_aligned halign _, (congrArg Span.hi hspan).trans_le hend⟩
      · exact hothers e' he'
  · refine ⟨hC.perm (heq ▸ hspans) (List.Perm.cons _ ((hperm'.map entrySpan).append_right rest).symm), fun e' he' => ?_,
      halign, hcut.trans hend⟩
    exact hothers e' (hperm'.mem_iff.mp he')

end

/-! ## Mapping and unmapping -/

/-- The allocator's ranges stay; a new page is a small one of `t`, between `lo` and `hi`. -/
structure MapsWithin (t lo hi : Nat) (k k' : Kernel α) : Prop where
  freelist : k'.freelist = k.freelist
  counter : k'.nextMmapAddr = k.nextMmapAddr
  pages : ∀ u page, (k.halves (some u)).leaves page = none →
    (k'.halves (some u)).leaves page = none ∨ u = t ∧ page.huge = false ∧ lo ≤ page.start ∧ page.start < hi

instance (t lo hi : Nat) : Std.Refl (MapsWithin t lo hi : Kernel α → Kernel α → Prop) :=
  ⟨fun _ => ⟨rfl, rfl, fun _ _ h => .inl h⟩⟩

instance (t lo hi : Nat) : IsTrans (Kernel α) (MapsWithin t lo hi) where
  trans _ _ _ h h' := by
    refine ⟨h'.freelist.trans h.freelist, h'.counter.trans h.counter, fun u page hnone => ?_⟩
    rcases h.pages u page hnone with hnone | hin
    · exact h'.pages u page hnone
    · exact .inr hin

/-- New frames add no page. -/
theorem mapsWithin_frames (t lo hi : Nat) (k : Kernel α) (a : α) : MapsWithin t lo hi k (k.setFrames a) :=
  ⟨rfl, rfl, fun _ _ h => .inl h⟩

/-- The loop of `mmap` maps the pages of its range. -/
theorem mapsWithin_mapFresh (W : PlatformLaws A) {t base n : Nat} (hfits : EntryFits (base, n))
    (flags : Capability.PageTableFlags) :
    Step.Keeps (MapsWithin t base (base + n * 4096)) (mapFresh A t base flags n 0) := by
  obtain ⟨halign, hend⟩ := hfits
  refine keeps_mapFresh (mapsWithin_frames _ _ _) W fun j _ hj phys _ k a half _ hmap => ⟨rfl, rfl, fun u page hnone => ?_⟩
  have hj : base + j * 4096 + 4096 ≤ base + n * 4096 := by
    have := Nat.mul_le_mul_right 4096 (show j + 1 ≤ n by omega)
    rw [Nat.add_mul] at this
    omega
  simp only at halign hend
  have hpage : pageAt base j = base + j * 4096 := pageAt_of_lt (by omega)
  have huser : Kernel.halfOf t (pageAt base j) = some t := if_pos (by rw [hpage, userTop_eq]; omega)
  rw [huser, pageFor_aligned W false (pageAt_aligned halign j)] at hmap
  rw [huser]
  by_cases hu : u = t
  · subst hu
    rw [Kernel.withHalf_self]
    rcases hmap page with heq | ⟨rfl, -, -⟩ | ⟨-, old, hold, -⟩
    · exact .inl (heq.trans hnone)
    · refine .inr ⟨rfl, rfl, ?_, ?_⟩ <;>
        simp only [hpage] <;> omega
    · rw [hnone] at hold
      cases hold
  · rw [Kernel.withHalf_ne _ _ (fun h => hu (Option.some.inj h))]
    exact .inl hnone

/-- Clearing adds no page. -/
theorem mapsWithin_clear (t lo hi : Nat) (o : Option Nat) (page : Page) (k : Kernel α) :
    MapsWithin t lo hi k (k.clear o page) :=
  ⟨rfl, rfl, fun _ _ hnone => .inl (Kernel.leaves_clear_none o page hnone)⟩

/-- The entry for a user address, by its place in a range. -/
theorem entryAt_page (k : Kernel α) (t : Nat) {base x : Nat} (h4 : base % 4096 = 0) (hle : base ≤ x) (hx : x < 2 ^ 47) :
    k.entryAt t (pageAt base ((x - base) / 4096)) = (k.halves (some t)).leaves (pageAround false x) := by
  have hpage : pageAt base ((x - base) / 4096) = x / 4096 * 4096 := by
    unfold pageAt blockAt
    omega
  unfold Kernel.entryAt Kernel.halfOf
  rw [hpage, if_pos (by rw [userTop_eq]; omega)]
  rfl

/-- How many pages of a range a task has. -/
def mappedIn (k : Kernel α) (t base : Nat) : Nat → Nat → Nat
  | 0, _ => 0
  | n + 1, i => mappedIn k t base n (i + 1) + if (k.entryAt t (pageAt base i)).isSome then 1 else 0

/-- At most all. -/
theorem mappedIn_le (k : Kernel α) (t base n i : Nat) : mappedIn k t base n i ≤ n := by
  induction n generalizing i with
  | zero => exact Nat.le_refl _
  | succ n ih =>
    have := ih (i + 1)
    unfold mappedIn
    split <;> omega

/-- The count depends on the entries of the range only. -/
theorem mappedIn_congr {t base n i : Nat}
    (h : ∀ j, i ≤ j → j < i + n → k'.entryAt t (pageAt base j) = k.entryAt t (pageAt base j)) :
    mappedIn k' t base n i = mappedIn k t base n i := by
  induction n generalizing i with
  | zero => rfl
  | succ n ih =>
    rw [mappedIn, mappedIn, h i (Nat.le_refl i) (by omega), ih fun j h₁ h₂ => h j (by omega) (by omega)]

/-- **The loop of `munmap`** counts the pages it finds, and none is left. -/
theorem unmapAndFree_counts (W : PlatformLaws A) {t base : Nat} (h4 : base % 4096 = 0) (n : Nat) {i freed v : Nat}
    (hend : base + (i + n) * 4096 ≤ 2 ^ 47) (hrun : unmapAndFree A t base n i freed k = .ok (v, k')) :
    v = freed + mappedIn k t base n i ∧ ∀ j, i ≤ j → j < i + n → k'.entryAt t (pageAt base j) = none := by
  induction n generalizing i freed k with
  | zero =>
    cases hrun
    exact ⟨rfl, fun j h₁ h₂ => by omega⟩
  | succ n ih =>
    have hend' : base + (i + 1 + n) * 4096 ≤ 2 ^ 47 := by rw [Nat.add_right_comm]; exact hend
    have hcanonical := canonical_of_user (pageAt_user (show base + i * 4096 < 2 ^ 47 by omega))
    -- the page is gone, and the loop goes on in a state that differs from the first by it only
    have hgone : ∀ {freed : Nat} (k₁ : Kernel α), (∀ addr, k₁.entryAt t addr =
        (k.clear (Kernel.halfOf t (pageAt base i)) ⟨false, pageAt base i⟩).entryAt t addr) →
        unmapAndFree A t base n (i + 1) freed k₁ = .ok (v, k') →
        v = freed + mappedIn k t base n (i + 1) ∧ ∀ j, i ≤ j → j < i + (n + 1) → k'.entryAt t (pageAt base j) = none := by
      intro freed k₁ hk₁ hrest
      obtain ⟨hv, hrest'⟩ := ih hend' hrest
      constructor
      · rw [hv, mappedIn_congr fun j h₁ h₂ => ?_]
        rw [hk₁, Kernel.entryAt_clear_ne]
        exact fun heq => absurd (pageAt_injective (by omega) (by omega) heq) (by omega)
      · intro j h₁ h₂
        rcases Nat.eq_or_lt_of_le h₁ with rfl | hlt
        · have hkeeps : Step.Keeps (Step.Preserves fun k => k.entryAt t (pageAt base i) = none)
              (unmapAndFree A t base n (i + 1) freed) :=
            keeps_unmapAndFree (fun _ _ => id) W freed fun _ _ _ _ => Kernel.leaves_clear_none _ _
          exact hkeeps k₁ v k' hrest ((hk₁ _).trans (Kernel.entryAt_clear_self k t _))
        · exact hrest' j hlt (by omega)
    rw [unmapAndFree, Step.bind_run (unmapPageInTable_run W hcanonical (pageAt_aligned h4 i) k)] at hrun
    rw [mappedIn]
    cases hentry : k.entryAt t (pageAt base i) with
    | none =>
      simp only [hentry] at hrun
      exact hgone _ (fun _ => rfl) hrun
    | some pte =>
      simp only [hentry] at hrun
      obtain ⟨u, k₁, hfree, hrest⟩ := Step.bind_ok.mp hrun
      obtain ⟨a, -, rfl⟩ := freePages_ok hfree
      obtain ⟨hv, hnone⟩ := hgone (Kernel.setFrames _ a) (fun _ => rfl) hrest
      exact ⟨hv.trans (by simp only [Option.isSome_some, if_true]; omega), hnone⟩

/-! ## The calls -/

/-- What an automatic `mmap` takes. -/
theorem Placement.automatic (h : Placement k) {n base : Nat} {k₁ : Kernel α}
    (hcounter : k.nextMmapAddr + n * 4096 < 2 ^ 64) (hrun : automaticAddr n k = .ok (some base, k₁)) :
    PackedIn (Clear k) (⟨base, base + n * 4096⟩ :: freeRanges k₁) ∧ EntryFits (base, n) ∧
      k₁.nextMmapAddr % 4096 = 0 ∧ (∀ e ∈ k₁.freelist.entries, EntryFits e) ∧ k₁.halves = k.halves := by
  have hC := Arrangement.of_packedIn (Clear k)
  rw [automaticAddr, Step.bind_run (Step.get_run k)] at hrun
  cases hpop : k.freelist.popFit n with
  | some r =>
    obtain ⟨addr, freelist⟩ := r
    rw [hpop] at hrun
    cases hrun
    obtain ⟨hspans, hentries, hfits⟩ := popFit_spans hC h.entries hpop
      (hC.perm h.free (perm_append_singleton _ _).symm)
    exact ⟨hC.perm hspans (List.Perm.cons _ (perm_append_singleton _ _)), hfits, h.counter, hentries, rfl⟩
  | none =>
    rw [hpop] at hrun
    have hpage : pageAt k.nextMmapAddr n = k.nextMmapAddr + n * 4096 := pageAt_of_lt hcounter
    simp only [bumpAddr, hpage] at hrun
    split at hrun
    · cases hrun
    next hlimit =>
    cases hrun
    have hle : k.nextMmapAddr + n * 4096 ≤ mmapLimit := Nat.le_of_not_lt hlimit
    refine ⟨hC.split h.free (Nat.le_add_right _ _) hle, ⟨h.counter, hle.trans (by decide)⟩, ?_, h.entries, rfl⟩
    show (k.nextMmapAddr + n * 4096) % 4096 = 0
    rw [Nat.add_mul_mod_self_right]
    exact h.counter

/-- An automatic `mmap` that finds no room. -/
theorem Placement.automatic_none (h : Placement k) {n : Nat} {k₁ : Kernel α}
    (hcounter : k.nextMmapAddr + n * 4096 < 2 ^ 64) (hrun : automaticAddr n k = .ok (none, k₁)) : Placement k₁ := by
  rw [automaticAddr, Step.bind_run (Step.get_run k)] at hrun
  cases hpop : k.freelist.popFit n with
  | some r =>
    rw [hpop] at hrun
    cases hrun
  | none =>
    rw [hpop] at hrun
    have hpage : pageAt k.nextMmapAddr n = k.nextMmapAddr + n * 4096 := pageAt_of_lt hcounter
    simp only [bumpAddr, hpage] at hrun
    split at hrun
    swap
    · cases hrun
    cases hrun
    have hsub : ∀ x, (⟨k.nextMmapAddr + n * 4096, mmapLimit⟩ : Span).Has x → (⟨k.nextMmapAddr, mmapLimit⟩ : Span).Has x :=
      fun x hx => ⟨(Nat.le_add_right _ _).trans hx.1, hx.2⟩
    refine ⟨⟨h.free.1.shrink hsub, fun s hs x hx => ?_⟩, ?_, h.entries⟩
    · rcases mem_cons.mp hs with rfl | hs
      · exact h.free.2 _ mem_cons_self x (hsub x hx)
      · exact h.free.2 s (mem_cons_of_mem _ hs) x hx
    · show (k.nextMmapAddr + n * 4096) % 4096 = 0
      rw [Nat.add_mul_mod_self_right]
      exact h.counter

/-- Pages that are apart from the free ranges are mapped. -/
theorem Placement.mapped {t base n : Nat} {k₁ : Kernel α} (hfree : PackedIn (Clear k) (freeRanges k₁))
    (hhalves : k₁.halves = k.halves) (hcounter : k₁.nextMmapAddr % 4096 = 0)
    (hentries : ∀ e ∈ k₁.freelist.entries, EntryFits e) (hfits : EntryFits (base, n))
    (hapart : ∀ s ∈ freeRanges k₁, Apart ⟨base, base + n * 4096⟩ s)
    (hmap : MapsWithin t base (base + n * 4096) k₁ k') : Placement k' := by
  have hranges : freeRanges k' = freeRanges k₁ := by
    unfold freeRanges
    rw [hmap.freelist, hmap.counter]
  refine ⟨?_, by rw [hmap.counter]; exact hcounter, by rw [hmap.freelist]; exact hentries⟩
  rw [hranges]
  refine ⟨hfree.1, fun s hs x hx => ?_⟩
  obtain ⟨huser, hnone⟩ := hfree.2 s hs x hx
  refine ⟨huser, fun u huge => ?_⟩
  rcases hmap.pages u (pageAround huge x) (by rw [hhalves]; exact hnone u huge) with hnone | ⟨-, hsmall, hlo, hhi⟩
  · exact hnone
  · have halign := hfits.1
    obtain rfl : huge = false := hsmall
    have hstart : (pageAround false x).start = x / 4096 * 4096 := rfl
    rw [hstart] at hlo hhi
    refine absurd ⟨⟨?_, ?_⟩, hx⟩ (hapart s hs x)
    · simp only
      omega
    · simp only at halign ⊢
      omega

/-- A range that is clear and apart from the free ranges goes to the list, if there is room. -/
theorem Placement.recycled (h : Placement k) {v freed : Nat} (hfits : EntryFits (v, freed))
    (hspans : PackedIn (Clear k) (entrySpan (v, freed) :: freeRanges k)) :
    Placement { k with freelist := k.freelist.push v freed } := by
  have hC := Arrangement.of_packedIn (Clear k)
  have hmove : PackedIn (Clear k) (entrySpan (v, freed) :: (k.freelist.entries.map entrySpan ++ [⟨k.nextMmapAddr, mmapLimit⟩])) :=
    hC.perm hspans (List.Perm.cons _ (perm_append_singleton _ _).symm)
  have hpush : PackedIn (Clear k) (⟨k.nextMmapAddr, mmapLimit⟩ :: (k.freelist.push v freed).entries.map entrySpan) ∧
      ∀ e ∈ (k.freelist.push v freed).entries, EntryFits e := by
    unfold MmapFreelist.push
    split
    · next entries hcoalesce =>
      obtain ⟨hout, hmem⟩ := coalesce_spans hC hfits.2 (fun e he => (h.entries e he).2) hcoalesce hmove
      refine ⟨hC.perm hout (perm_append_singleton _ _), fun e he => ?_⟩
      rcases hmem e he with hold | ⟨heq | ⟨e', he', heq⟩, hend⟩
      · exact h.entries e hold
      · exact ⟨heq ▸ hfits.1, hend⟩
      · exact ⟨heq ▸ (h.entries e' he').1, hend⟩
    · split
      · refine ⟨?_, fun e he => ?_⟩
        · rw [map_append, map_singleton]
          exact hC.perm hspans (perm_append_singleton _ _).symm
        · rcases mem_append.mp he with he | he
          · exact h.entries e he
          · rw [mem_singleton.mp he]
            exact hfits
      · exact ⟨h.free, h.entries⟩
  exact ⟨hpush.1, h.counter, hpush.2⟩

/-- A hint that is taken lies in the user half. -/
theorem entryFits_of_hinted {hint : UInt64} {n base : Nat} (h : hintedAddr hint n = some base) : EntryFits (base, n) := by
  unfold hintedAddr at h
  simp only at h
  split_ifs at h with h₁ h₂ h₃
  cases h
  rw [userTop_eq] at h₃
  exact ⟨not_not.mp (not_or.mp h₁).1, not_lt.mp (not_or.mp h₃).2⟩

/-- The calls that keep the free ranges apart and clear: the counter does not wrap, a hint lies in no free range, and
what `munmap` records was mapped by the caller, in small pages, or is otherwise not in use, and other tasks have no page
there. -/
def Places (k : Kernel α) : Call → Prop
  | .mmap _ hint size _ =>
    (hint = 0 → k.nextMmapAddr + pagesOf size * 4096 < 2 ^ 64) ∧
      ∀ base, hint ≠ 0 → hintedAddr hint (pagesOf size) = some base →
        ∀ s ∈ freeRanges k, Apart ⟨base, base + pagesOf size * 4096⟩ s
  | .munmap t virtAddr size =>
    virtAddr.toNat + pagesOf size * 4096 ≤ 2 ^ 47 ∧
      ∀ x, (entrySpan (virtAddr.toNat, mappedIn k t virtAddr.toNat (pagesOf size) 0)).Has x →
        (∀ u huge, u ≠ t ∨ huge = true → (k.halves (some u)).leaves (pageAround huge x) = none) ∧
          ((k.halves (some t)).leaves (pageAround false x) = none → ∀ s ∈ freeRanges k, ¬ s.Has x)
  | _ => False

/-- `mmap` keeps the placement, and adds small pages of the caller only. -/
theorem Placement.mmap (W : PlatformLaws A) (h : Placement k) {t value : Nat} {hint size flags : UInt64}
    (hplaces : Places k (.mmap t hint size flags)) (hrun : syscallMmap A t hint size flags k = .ok (value, k')) :
    Placement k' ∧ ∀ u page, u ≠ t ∨ page.huge = true → (k.halves (some u)).leaves page = none →
      (k'.halves (some u)).leaves page = none := by
  have hothers : ∀ {lo hi : Nat} {k₁ k₂ : Kernel α}, k₁.halves = k.halves → MapsWithin t lo hi k₁ k₂ →
      ∀ u page, u ≠ t ∨ page.huge = true → (k.halves (some u)).leaves page = none →
        (k₂.halves (some u)).leaves page = none := by
    intro lo hi k₁ k₂ hhalves hmap u page hother hnone
    rcases hmap.pages u page (by rw [hhalves]; exact hnone) with hnone | ⟨hu, hsmall, -⟩
    · exact hnone
    · rw [hsmall] at hother
      exact absurd hu (hother.resolve_right (by decide))
  have hends : ∀ {base value : Nat} {ok : Bool} {k₂ : Kernel α},
      (if ok = true then pure base else pure u64Max : Mem α Nat) k₂ = .ok (value, k') → k' = k₂ := by
    intro base value ok k₂ hrun
    cases ok <;> cases hrun <;> rfl
  unfold syscallMmap at hrun
  split at hrun
  · cases hrun
    exact ⟨h, fun _ _ _ hnone => hnone⟩
  obtain ⟨r, k₁, hchoose, hrun⟩ := Step.bind_ok.mp hrun
  unfold chooseAddr at hchoose
  split at hchoose
  · next hhint =>
    cases hchoose
    cases hbase : hintedAddr hint (pagesOf size) with
    | none =>
      rw [hbase] at hrun
      cases hrun
      exact ⟨h, fun _ _ _ hnone => hnone⟩
    | some base =>
      rw [hbase] at hrun
      obtain ⟨ok, k₂, hmap, hrun⟩ := Step.bind_ok.mp hrun
      obtain rfl := hends hrun
      have hfits := entryFits_of_hinted hbase
      have hmaps := mapsWithin_mapFresh W hfits _ k ok k' hmap
      exact ⟨Placement.mapped h.free rfl h.counter h.entries hfits (hplaces.2 base hhint hbase) hmaps, hothers rfl hmaps⟩
  · next hhint =>
    have hcounter := hplaces.1 (not_not.mp hhint)
    cases r with
    | none =>
      cases hrun
      refine ⟨h.automatic_none hcounter hchoose, fun u page _ hnone => ?_⟩
      obtain ⟨r, k₂, hrun, hhalves, -⟩ := automaticAddr_run (pagesOf size) k
      rw [hchoose] at hrun
      cases hrun
      rw [hhalves]
      exact hnone
    | some base =>
      obtain ⟨ok, k₂, hmap, hrun⟩ := Step.bind_ok.mp hrun
      obtain rfl := hends hrun
      obtain ⟨hspans, hfits, hcounter', hentries, hhalves⟩ := h.automatic hcounter hchoose
      have hmaps := mapsWithin_mapFresh W hfits _ k₁ ok k' hmap
      obtain ⟨hapart, hpacked⟩ := packed_cons.mp hspans.1
      exact ⟨Placement.mapped ⟨hpacked, fun s hs => hspans.2 s (mem_cons_of_mem _ hs)⟩ hhalves hcounter' hentries
        hfits hapart hmaps, hothers hhalves hmaps⟩

/-- `munmap` keeps the placement. -/
theorem Placement.munmap (W : PlatformLaws A) (h : Placement k) {t value : Nat} {virtAddr size : UInt64}
    (hplaces : Places k (.munmap t virtAddr size)) (hrun : syscallMunmap A t virtAddr size k = .ok (value, k')) :
    Placement k' := by
  unfold syscallMunmap at hrun
  split at hrun
  · cases hrun
    exact h
  next hargs =>
  obtain ⟨hrange, hpushed⟩ := hplaces
  have halign : virtAddr.toNat % 4096 = 0 := by omega
  obtain ⟨freed, k₁, hunmap, hrun⟩ := Step.bind_ok.mp hrun
  obtain ⟨hfreed, hgone⟩ := unmapAndFree_counts W halign (pagesOf size) (by rw [Nat.zero_add]; exact hrange) hunmap
  rw [Nat.zero_add] at hfreed
  -- only pages are taken away
  have hclears : MapsWithin t 0 0 k k₁ :=
    keeps_unmapAndFree (mapsWithin_frames t 0 0) W 0 (fun j _ _ => mapsWithin_clear t 0 0 _ _) k freed k₁ hunmap
  have hranges : freeRanges k₁ = freeRanges k := by
    unfold freeRanges
    rw [hclears.freelist, hclears.counter]
  have hclear : ∀ x, Clear k x → Clear k₁ x := fun x hx => by
    refine ⟨hx.1, fun u huge => ?_⟩
    rcases hclears.pages u _ (hx.2 u huge) with hnone | ⟨-, -, -, hlt⟩
    · exact hnone
    · omega
  have h₁ : Placement k₁ := by
    refine ⟨?_, by rw [hclears.counter]; exact h.counter, by rw [hclears.freelist]; exact h.entries⟩
    rw [hranges]
    exact ⟨h.free.1, fun s hs x hx => hclear x (h.free.2 s hs x hx)⟩
  obtain ⟨u, k₂, hwhen, hrun⟩ := Step.bind_ok.mp hrun
  cases hrun
  unfold Step.when at hwhen
  split at hwhen
  swap
  · cases hwhen
    exact h₁
  cases hwhen
  have hle : freed * 4096 ≤ pagesOf size * 4096 :=
    Nat.mul_le_mul_right _ (hfreed ▸ mappedIn_le k t virtAddr.toNat (pagesOf size) 0)
  have hfits : EntryFits (virtAddr.toNat, freed) := ⟨halign, (Nat.add_le_add_left hle _).trans hrange⟩
  rw [← hfreed] at hpushed
  refine h₁.recycled hfits ⟨packed_cons.mpr ⟨fun s hs x hx => ?_, h₁.free.1⟩, fun s hs x hx => ?_⟩
  · -- a page of the range was mapped, or lies in no free range
    rw [hranges] at hs
    exact (hpushed x hx.1).2 ((h.free.2 s hs x hx.2).2 t false) s hs hx.2
  · rcases mem_cons.mp hs with rfl | hs
    swap
    · exact h₁.free.2 s hs x hx
    refine ⟨Nat.lt_of_lt_of_le hx.2 hfits.2, fun u huge => ?_⟩
    by_cases hother : u ≠ t ∨ huge = true
    · rcases hclears.pages u _ ((hpushed x hx).1 u huge hother) with hnone | ⟨-, -, -, hlt⟩
      · exact hnone
      · omega
    · obtain ⟨hu, hsmall⟩ := not_or.mp hother
      obtain rfl := not_not.mp hu
      obtain rfl := Bool.eq_false_of_not_eq_true hsmall
      rw [← entryAt_page k₁ u halign hx.1 (Nat.lt_of_lt_of_le hx.2 hfits.2)]
      refine hgone _ (Nat.zero_le _) ?_
      have hlt : x < virtAddr.toNat + pagesOf size * 4096 := Nat.lt_of_lt_of_le hx.2 (Nat.add_le_add_left hle _)
      rw [Nat.zero_add, Nat.div_lt_iff_lt_mul (by decide)]
      omega

/-- One call. -/
theorem places_step (W : PlatformLaws A) {c : Call} {value : Nat} (hplaces : Places k c) (hstep : Steps A k c value k') (h : Placement k) :
    Placement k' := by
  cases c with
  | mmap t hint size flags => exact (h.mmap W hplaces hstep.2).1
  | munmap t virtAddr size => exact h.munmap W hplaces hstep.2
  | _ => exact absurd hplaces id

/-- Before the first call: nothing is recycled, and no task has a page where the counter will come. -/
structure PlacementStart (k : Kernel α) : Prop where
  freelist : k.freelist.entries = []
  counter : k.nextMmapAddr = mmapBase
  clear : ∀ x, mmapBase ≤ x → x < mmapLimit → ∀ t huge, (k.halves (some t)).leaves (pageAround huge x) = none

/-- Such a state is fine. -/
theorem PlacementStart.placement (h : PlacementStart k) : Placement k := by
  refine ⟨⟨?_, fun s hs x hx => ?_⟩, by rw [h.counter]; decide, by rw [h.freelist]; exact fun e he => by cases he⟩
  · unfold freeRanges
    rw [h.freelist]
    exact pairwise_singleton _ _
  · unfold freeRanges at hs
    rw [h.freelist, h.counter, map_nil] at hs
    cases mem_singleton.mp hs
    exact ⟨hx.2.trans (by decide), h.clear x hx.1 hx.2⟩

/-- **Automatic placement finds free addresses**: in every run whose calls keep the free ranges apart and clear, the
recycled ranges are apart, and an automatic `mmap` selects pages that the caller does not have. -/
theorem placement_run (W : PlatformLaws A) {k₀ : Kernel α} (hstart : PlacementStart k₀) {cs : List Call} (hrun : RunWith A Places k₀ cs k) :
    Packed (k.freelist.entries.map entrySpan) ∧
      ∀ t size flags base k₁, Places k (.mmap t 0 size flags) → automaticAddr (pagesOf size) k = .ok (some base, k₁) →
        ∀ i < pagesOf size, ∀ huge, (k.halves (some t)).leaves (pageAround huge (pageAt base i)) = none := by
  have h : Placement k := hrun.keeps (fun _ _ _ _ => places_step W) hstart.placement
  refine ⟨(packed_cons.mp h.free.1).2, fun t size flags base k₁ hplaces hauto i hi huge => ?_⟩
  obtain ⟨hspans, ⟨halign, hend⟩, -⟩ := h.automatic (hplaces.1 rfl) hauto
  have hi' : (i + 1) * 4096 ≤ pagesOf size * 4096 := Nat.mul_le_mul_right _ hi
  rw [Nat.add_mul] at hi'
  have hin : (⟨base, base + pagesOf size * 4096⟩ : Span).Has (base + i * 4096) :=
    ⟨Nat.le_add_right _ _, by simp only; omega⟩
  obtain ⟨huser, hnone⟩ := hspans.2 _ mem_cons_self _ hin
  rw [pageAt_of_lt (huser.trans (by decide))]
  exact hnone t huge

/-- The small machine with two live tasks. -/
def twoTasks : Kernel Physical.Pmm :=
  { smallMachine with tasks := fun t => if t = 1 ∨ t = 2 then some ⟨0x1000, false⟩ else none }

/-- Nothing is mapped yet. -/
theorem twoTasks_start : PlacementStart twoTasks := ⟨rfl, rfl, fun _ _ _ _ _ => rfl⟩

/-- Task 1 maps two pages and gives them back; task 2 gets the first of them. -/
theorem placement_two_tasks :
    ∃ k, RunWith pc Places twoTasks
        [.mmap 1 0 8192 3, .munmap 1 0x40000000 8192, .mmap 2 0 4096 3] k ∧
      k.freelist.entries = [(0x40001000, 1)] ∧ Packed (k.freelist.entries.map entrySpan) := by
  obtain ⟨k₁, ⟨_, _, hstep₁, rfl⟩, htest⟩ := exists_run pc twoTasks [.mmap 1 0 8192 3] (fun k₁ =>
    (mappedIn k₁ 1 0x40000000 2 0 == 2 && k₁.freelist.entries == [] && k₁.nextMmapAddr == 0x40002000) &&
      (after pc k₁ [.munmap 1 0x40000000 8192]).any fun k₂ => k₂.nextMmapAddr == 0x40002000 &&
        (after pc k₂ [.mmap 2 0 4096 3]).any fun k => k.freelist.entries == [(0x40001000, 1)])
    (by decide +kernel)
  obtain ⟨hfacts, htest⟩ := Bool.and_eq_true_iff.mp htest
  obtain ⟨k₂, ⟨_, _, hstep₂, rfl⟩, htest⟩ := exists_run _ k₁ _ _ htest
  obtain ⟨hnext₂, htest⟩ := Bool.and_eq_true_iff.mp htest
  obtain ⟨k, ⟨_, _, hstep₃, rfl⟩, hlast⟩ := exists_run _ k₂ _ _ htest
  simp only [Bool.and_eq_true, beq_iff_eq] at hfacts hnext₂ hlast
  obtain ⟨⟨hcount, hnone⟩, hnext₁⟩ := hfacts
  have hplaces₁ : Places twoTasks (.mmap 1 0 8192 3) := ⟨fun _ => by decide, fun _ h => absurd rfl h⟩
  have hothers := (twoTasks_start.placement.mmap pc_laws hplaces₁ hstep₁.2).2
  have hplaces₂ : Places k₁ (.munmap 1 0x40000000 8192) := by
    refine ⟨by decide, fun x hx => ⟨fun u huge h => hothers u _ h rfl, fun _ s hs => ?_⟩⟩
    rw [show mappedIn k₁ 1 (0x40000000 : UInt64).toNat (pagesOf 8192) 0 = 2 from hcount] at hx
    rw [freeRanges, hnone, hnext₁, map_nil] at hs
    cases mem_singleton.mp hs
    exact fun hx' => Nat.lt_irrefl x (Nat.lt_of_lt_of_le hx.2 hx'.1)
  have hplaces₃ : Places k₂ (.mmap 2 0 4096 3) :=
    ⟨fun _ => by rw [hnext₂]; decide, fun _ h => absurd rfl h⟩
  have hrun : RunWith pc Places twoTasks
      [.mmap 1 0 8192 3, .munmap 1 0x40000000 8192, .mmap 2 0 4096 3] k :=
    ⟨_, _, hplaces₁, hstep₁, _, _, hplaces₂, hstep₂, _, _, hplaces₃, hstep₃, rfl⟩
  exact ⟨k, hrun, hlast, (placement_run pc_laws twoTasks_start hrun).1⟩

/-- **Automatic placement fails**: the counter comes to a page that was mapped with a hint, and a `munmap` that finds
only its second page mapped records the first, twice. -/
theorem placement_broken :
    (∃ k k₁, Run pc twoTasks [.mmap 1 0x40000000 4096 3] k ∧
      automaticAddr (pagesOf 4096) k = .ok (some 0x40000000, k₁) ∧ (k.entryAt 1 0x40000000).isSome = true) ∧
    ∃ k, Run pc twoTasks
        [.mmap 1 0x50001000 4096 3, .munmap 1 0x50000000 8192, .mmap 1 0x50001000 4096 3, .munmap 1 0x50000000 8192] k ∧
      ¬ Packed (k.freelist.entries.map entrySpan) := by
  constructor
  · obtain ⟨k, hrun, htest⟩ := exists_run pc twoTasks [.mmap 1 0x40000000 4096 3]
      (fun k => (k.entryAt 1 0x40000000).isSome &&
        (automaticAddr (pagesOf 4096) k).toOption.bind Prod.fst == some 0x40000000) (by decide +kernel)
    obtain ⟨hsome, hbase⟩ := Bool.and_eq_true_iff.mp htest
    obtain ⟨⟨base, k₁⟩, hauto, rfl⟩ := Option.bind_eq_some_iff.mp (beq_iff_eq.mp hbase)
    exact ⟨k, k₁, hrun, Step.ok_of_toOption hauto, hsome⟩
  · obtain ⟨k, hrun, htest⟩ := exists_run pc twoTasks
      [.mmap 1 0x50001000 4096 3, .munmap 1 0x50000000 8192, .mmap 1 0x50001000 4096 3, .munmap 1 0x50000000 8192]
      (fun k => k.freelist.entries == [(0x50000000, 1), (0x50000000, 1)]) (by decide +kernel)
    refine ⟨k, hrun, fun hpacked => ?_⟩
    rw [beq_iff_eq.mp htest] at hpacked
    exact (packed_cons.mp hpacked).1 _ mem_cons_self 0x50000000 ⟨⟨by decide, by decide⟩, by decide, by decide⟩

end Folkering.Memory
