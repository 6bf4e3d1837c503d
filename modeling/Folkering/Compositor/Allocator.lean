/-
  The heap allocator of the compositor.

  A block starts with a word that holds its size.  The second word of a free block links it to the next one, the free
  list being sorted by address; an allocated block has its payload from offset 16 on.  The argument is about the heap as
  a row of blocks, free and live, that stand one behind the other and fill it (`Row`):
    * `alloc` replaces a free block by a live one, with or without a rest (`alloc_keeps`);
    * `dealloc` frees a live block and joins it with a free neighbour on either side (`dealloc_keeps`);
    * no two neighbours are free, so what lies between two blocks of the free list is never empty (`frees_apart`).
  The heap is set up by the first `alloc`; before it the free list is empty.

  The memory is a map from addresses to words: blocks start at multiples of 16 from the base (`Block.Ok`), so words that
  are read or written never overlap in part.  Callers may write words of their own payloads between the calls.
-/
import Mathlib.Data.List.Chain
import Folkering.Lib.Segments
import Folkering.Lib.Word64

namespace Folkering.Compositor

open Word64 Segments List

/-- 32 MiB. -/
def heapSize : Nat := 32 * 1024 * 1024
/-- The smallest block. -/
def minBlock : Nat := 32
/-- The header in front of a payload. -/
def headerSize : Nat := 16

/-- A layout of the standard library: the alignment is a power of two, and the size rounded up to it fits. -/
structure Layout where
  size : Nat
  alignLog : Nat
  fits : size + 2 ^ alignLog ≤ 2 ^ 63

/-- The alignment that is asked for. -/
def Layout.align (layout : Layout) : Nat := 2 ^ layout.alignLog

/-- The heap's memory, the head of the free list and whether it is set up. -/
structure State where
  mem : Nat → Nat
  freeHead : Nat
  initialized : Bool

namespace State

/-- Write a word. -/
def set (s : State) (addr value : Nat) : State := { s with mem := Function.update s.mem addr value }

/-- The link of a free block. -/
def next (s : State) (node : Nat) : Nat := s.mem (node + 8)

/-- `prev` (or the head of the list) leads to `node`. -/
def link (s : State) (prev node : Nat) : State :=
  if prev = 0 then { s with freeHead := node } else s.set (prev + 8) node

end State

/-- Enough steps for any free list. -/
def hops : Nat := heapSize / minBlock + 1

/-- The whole heap becomes one free block. -/
def init (base : Nat) (s : State) : State :=
  { (s.set base heapSize).set (base + 8) 0 with freeHead := base, initialized := true }

/-- Header and payload, rounded up. -/
def Layout.totalSize (layout : Layout) : Nat :=
  let align := max layout.align 16
  max (wsub (wadd (headerSize + layout.size) align) 1 &&& wnot (align - 1)) minBlock

/-- `alloc`: the pointer, null (`0`) when no block is large enough.  `none` is a search that does not end. -/
def alloc (base : Nat) (s : State) (layout : Layout) : Option (State × Nat) :=
  let s := if s.initialized then s else init base s
  let totalSize := layout.totalSize
  match walk s.next (fun node => decide (s.mem node ≥ totalSize)) hops 0 s.freeHead with
  | none => none
  | some (prev, current) =>
    if current = 0 then some (s, 0)
    else
      let blockSize := s.mem current
      let remaining := blockSize - totalSize
      if remaining ≥ minBlock then
        let newFree := current + totalSize
        let s := s.set newFree remaining
        let s := s.set (newFree + 8) (s.next current)
        let s := s.link prev newFree
        some (s.set current totalSize, current + headerSize)
      else
        let s := s.link prev (s.next current)
        some (s.set current blockSize, current + headerSize)

/-- Join a block with the one behind it, if they touch. -/
def coalesce (s : State) (node behind : Nat) : State :=
  if node + s.mem node = behind then
    let s := s.set node (s.mem node + s.mem behind)
    s.set (node + 8) (s.next behind)
  else s

/-- `dealloc`: list the block in its place and join it with its neighbours. -/
def dealloc (s : State) (ptr : Nat) : Option State :=
  if ptr = 0 then some s
  else
    let newNode := ptr - headerSize
    let s := s.set newNode (s.mem newNode)
    match walk s.next (fun node => decide (newNode ≤ node)) hops 0 s.freeHead with
    | none => none
    | some (prev, current) =>
      let s := (s.set (newNode + 8) current).link prev newNode
      let s := if current ≠ 0 then coalesce s newNode current else s
      some (if prev ≠ 0 then coalesce s prev newNode else s)

/-! ## Sizes -/

/-- The rounding is to a multiple of the alignment, at least 16. -/
theorem totalSize_eq (layout : Layout) : layout.totalSize = max ((headerSize + layout.size + 2 ^ max layout.alignLog 4 - 1) /
    2 ^ max layout.alignLog 4 * 2 ^ max layout.alignLog 4) minBlock := by
  have hfits := layout.fits
  have hpos := Nat.two_pow_pos layout.alignLog
  have halign : max layout.align 16 = 2 ^ max layout.alignLog 4 := by
    unfold Layout.align
    rcases Nat.le_total 4 layout.alignLog with h | h
    · have hpow : 2 ^ 4 ≤ 2 ^ layout.alignLog := Nat.pow_le_pow_right (by decide) h
      rw [Nat.max_eq_left h]
      omega
    · have hpow : 2 ^ layout.alignLog ≤ 2 ^ 4 := Nat.pow_le_pow_right (by decide) h
      rw [Nat.max_eq_right h]
      omega
  have hle : headerSize + layout.size + 2 ^ max layout.alignLog 4 ≤ 2 ^ 64 := by
    rw [← halign]
    unfold Layout.align headerSize
    omega
  have hk64 : max layout.alignLog 4 < 64 := by
    by_contra hge
    have hpow : 2 ^ 64 ≤ 2 ^ max layout.alignLog 4 := Nat.pow_le_pow_right (by decide) (by omega)
    unfold headerSize at hle
    omega
  simp only [Layout.totalSize, halign, round_up hk64 hle]

theorem totalSize_spec (layout : Layout) :
    headerSize + layout.size ≤ layout.totalSize ∧ minBlock ≤ layout.totalSize ∧ 16 ∣ layout.totalSize := by
  rw [totalSize_eq]
  have hk : 4 ≤ max layout.alignLog 4 := Nat.le_max_right _ _
  generalize max layout.alignLog 4 = k at hk
  have hdvd : 16 ∣ 2 ^ k := pow_dvd_pow 2 hk
  have hge : headerSize + layout.size ≤ (headerSize + layout.size + 2 ^ k - 1) / 2 ^ k * 2 ^ k := by
    have hmod := Nat.mod_add_div (headerSize + layout.size + 2 ^ k - 1) (2 ^ k)
    have hlt := Nat.mod_lt (headerSize + layout.size + 2 ^ k - 1) (Nat.two_pow_pos k)
    rw [Nat.mul_comm] at hmod
    omega
  refine ⟨Nat.le_trans hge (Nat.le_max_left _ _), Nat.le_max_right _ _, ?_⟩
  rcases Nat.le_total ((headerSize + layout.size + 2 ^ k - 1) / 2 ^ k * 2 ^ k) minBlock with h | h
  · rw [Nat.max_eq_right h]
    decide
  · rw [Nat.max_eq_left h]
    exact Nat.dvd_trans hdvd (Nat.dvd_mul_left _ _)

/-! ## The heap as a row of blocks -/

/-- A block: free, or live with so many bytes asked for. -/
structure Block where
  start : Nat
  size : Nat
  payload : Option Nat

/-- The block has room for its header and its payload. -/
structure Block.Ok (b : Block) : Prop where
  size : minBlock ≤ b.size
  aligned : 16 ∣ b.size
  fits : ∀ n, b.payload = some n → headerSize + n ≤ b.size

/-- The blocks stand one behind the other from `lo` to `hi`. -/
def Tiles : Nat → List Block → Nat → Prop
  | lo, [], hi => lo = hi
  | lo, b :: bs, hi => b.start = lo ∧ Tiles (b.start + b.size) bs hi

/-- The blocks fill the heap, and each is well formed. -/
structure Filled (base : Nat) (bs : List Block) : Prop where
  tiles : Tiles base bs (base + heapSize)
  ok : ∀ b ∈ bs, b.Ok

/-- No two neighbours are free. -/
def Alternating (bs : List Block) : Prop := bs.IsChain fun a b => a.payload ≠ none ∨ b.payload ≠ none

/-- The starts of the free blocks. -/
def frees (bs : List Block) : List Nat := (bs.filter fun b => b.payload.isNone).map (·.start)

/-- The live payloads: pointer and size. -/
def lives (bs : List Block) : List (Nat × Nat) := bs.filterMap fun b => b.payload.map fun n => (b.start + headerSize, n)

/-- What the memory says about the blocks. -/
structure Stored (s : State) (bs : List Block) : Prop where
  words : ∀ b ∈ bs, s.mem b.start = b.size
  list : Seg s.next s.freeHead (frees bs) 0

section Row

variable {base lo hi : Nat} {bs x y ws zs : List Block} {a b c : Block}

theorem tiles_append : ∀ {lo : Nat} {x : List Block}, Tiles lo (x ++ y) hi ↔ ∃ m, Tiles lo x m ∧ Tiles m y hi
  | lo, [] => by simp [Tiles]
  | lo, b :: x => by
    simp only [cons_append, Tiles, @tiles_append (b.start + b.size) x]
    constructor
    · rintro ⟨hb, m, hx, hy⟩
      exact ⟨m, ⟨hb, hx⟩, hy⟩
    · rintro ⟨m, ⟨hb, hx⟩, hy⟩
      exact ⟨hb, m, hx, hy⟩

theorem Tiles.bounds : ∀ {lo : Nat} {bs : List Block}, Tiles lo bs hi →
    lo ≤ hi ∧ ∀ b ∈ bs, lo ≤ b.start ∧ b.start + b.size ≤ hi
  | lo, [], h => ⟨Nat.le_of_eq h, by simp⟩
  | lo, b :: bs, ⟨hb, h⟩ => by
    obtain ⟨hle, hall⟩ := h.bounds
    refine ⟨by omega, fun c hc => ?_⟩
    rcases mem_cons.mp hc with rfl | hc
    · omega
    · have := hall c hc
      omega

theorem mem_row : a ∈ x ++ c :: y ↔ a = c ∨ a ∈ x ++ y := perm_middle.mem_iff.trans mem_cons

/-- A block is apart from the others of the row. -/
theorem Filled.apart (h : Filled base (x ++ c :: y)) (ha : a ∈ x ++ y) :
    a.start + minBlock ≤ c.start ∨ c.start + c.size ≤ a.start := by
  obtain ⟨m, hx, hc, hy⟩ := tiles_append.mp h.tiles
  rcases mem_append.mp ha with ha | ha
  · have hb := hx.bounds.2 a ha
    have hok := (h.ok a (by simp [ha])).size
    omega
  · have hb := hy.bounds.2 a ha
    omega

theorem Tiles.length : ∀ {lo : Nat} {bs : List Block}, Tiles lo bs hi → (∀ b ∈ bs, b.Ok) →
    lo + minBlock * bs.length ≤ hi
  | _, [], h, _ => Nat.le_of_eq h
  | _, b :: bs, ⟨rfl, h⟩, hok => by
    have hrest := h.length fun c hc => hok c (mem_cons_of_mem _ hc)
    have hb := (hok b mem_cons_self).size
    rw [length_cons, Nat.mul_succ]
    omega

theorem forall_row {P : Block → Prop} (hxy : ∀ b ∈ x ++ y, P b) (hzs : ∀ b ∈ zs, P b) : ∀ b ∈ x ++ (zs ++ y), P b := by
  intro b hb
  rcases mem_append.mp ((perm_append_comm_assoc x zs y).mem_iff.mp hb) with hb | hb
  · exact hzs b hb
  · exact hxy b hb

/-- Other blocks in the place of some. -/
theorem Filled.replace (h : Filled base (x ++ (ws ++ y))) (ht : ∀ {lo hi}, Tiles lo ws hi → Tiles lo zs hi)
    (hok : ∀ z ∈ zs, z.Ok) : Filled base (x ++ (zs ++ y)) := by
  obtain ⟨m, hx, hm⟩ := tiles_append.mp h.tiles
  obtain ⟨m', hws, hy⟩ := tiles_append.mp hm
  refine ⟨tiles_append.mpr ⟨m, hx, tiles_append.mpr ⟨m', ht hws, hy⟩⟩, forall_row (fun b hb => h.ok b ?_) hok⟩
  exact (perm_append_comm_assoc x ws y).mem_iff.mpr (mem_append_right ws hb)

theorem alternating_live (hc : c.payload ≠ none) : Alternating (x ++ c :: y) ↔ Alternating x ∧ Alternating y := by
  unfold Alternating
  rw [isChain_append, isChain_cons]
  simp [hc]

theorem alternating_free (hc : c.payload = none) :
    Alternating (c :: y) ↔ Alternating y ∧ ∀ b ∈ y.head?, b.payload ≠ none := by
  unfold Alternating
  rw [isChain_cons]
  simp [hc, and_comm]

@[simp] theorem frees_append : frees (x ++ y) = frees x ++ frees y := by simp [frees]

theorem frees_cons_free (hc : c.payload = none) : frees (c :: y) = c.start :: frees y := by simp [frees, hc]

theorem frees_cons_live (hc : c.payload ≠ none) : frees (c :: y) = frees y := by
  simp [frees, Option.isNone_iff_eq_none, hc]

@[simp] theorem lives_append : lives (x ++ y) = lives x ++ lives y := by simp [lives]

theorem lives_cons_free (hc : c.payload = none) : lives (c :: y) = lives y := by simp [lives, hc]

theorem lives_cons_live {n : Nat} (hc : c.payload = some n) :
    lives (c :: y) = (c.start + headerSize, n) :: lives y := by simp [lives, hc]

theorem mem_frees {p : Nat} (h : p ∈ frees bs) : ∃ b ∈ bs, b.payload = none ∧ b.start = p := by
  obtain ⟨b, hb, rfl⟩ := mem_map.mp h
  rw [mem_filter, Option.isNone_iff_eq_none] at hb
  exact ⟨b, hb.1, hb.2, rfl⟩

/-- The row around a place of the free list. -/
theorem frees_split : ∀ {bs : List Block} {l₁ l₂ : List Nat} {p : Nat}, frees bs = l₁ ++ p :: l₂ →
    ∃ x c y, bs = x ++ c :: y ∧ c.payload = none ∧ c.start = p ∧ frees x = l₁ ∧ frees y = l₂
  | [], l₁, l₂, p, h => by simp [frees] at h
  | b :: bs, l₁, l₂, p, h => by
    by_cases hb : b.payload = none
    · rw [frees_cons_free hb] at h
      cases l₁ with
      | nil =>
        obtain ⟨hp, hl⟩ := List.cons.inj h
        exact ⟨[], b, bs, rfl, hb, hp, rfl, hl⟩
      | cons q l₁ =>
        obtain ⟨hq, hl⟩ := List.cons.inj h
        obtain ⟨x, c, y, rfl, hc, hp, rfl, hy⟩ := frees_split hl
        exact ⟨b :: x, c, y, rfl, hc, hp, by rw [frees_cons_free hb, hq], hy⟩
    · rw [frees_cons_live hb] at h
      obtain ⟨x, c, y, rfl, hc, hp, rfl, hy⟩ := frees_split h
      exact ⟨b :: x, c, y, rfl, hc, hp, frees_cons_live hb, hy⟩

theorem frees_length_lt (h : Filled base bs) : (frees bs).length < hops := by
  have hle : (frees bs).length ≤ bs.length := by
    rw [frees, length_map]
    exact length_filter_le _ _
  have hlen := h.tiles.length h.ok
  unfold hops
  rw [Nat.lt_succ_iff, Nat.le_div_iff_mul_le (by decide), Nat.mul_comm]
  exact Nat.le_trans (Nat.mul_le_mul_left _ hle) (by omega)

theorem frees_sorted : ∀ {lo : Nat} {bs : List Block}, Tiles lo bs hi → (∀ b ∈ bs, b.Ok) →
    (frees bs).Pairwise (· < ·)
  | _, [], _, _ => .nil
  | _, b :: bs, ⟨_, h⟩, hok => by
    have ih := frees_sorted h fun c hc => hok c (mem_cons_of_mem _ hc)
    by_cases hb : b.payload = none
    · rw [frees_cons_free hb]
      refine pairwise_cons.mpr ⟨fun p hp => ?_, ih⟩
      obtain ⟨c, hc, -, rfl⟩ := mem_frees hp
      have hle := (h.bounds.2 c hc).1
      have hsize := (hok b mem_cons_self).size
      unfold minBlock at hsize
      omega
    · rw [frees_cons_live hb]
      exact ih

theorem frees_nodup (h : Filled base bs) : (frees bs).Nodup := (frees_sorted h.tiles h.ok).imp fun h => Nat.ne_of_lt h

end Row

/-! ## Writes -/

section Writes

variable {s : State} {addr value prev node w : Nat}

theorem set_mem : (s.set addr value).mem w = if w = addr then value else s.mem w := Function.update_apply _ _ _ _

theorem set_next : (s.set addr value).next w = if w + 8 = addr then value else s.next w := set_mem

theorem set_freeHead : (s.set addr value).freeHead = s.freeHead := rfl

theorem link_freeHead : (s.link prev node).freeHead = linkHead s.freeHead prev node := by
  unfold State.link linkHead
  split <;> rfl

theorem link_mem (h : prev = 0 ∨ w ≠ prev + 8) : (s.link prev node).mem w = s.mem w := by
  unfold State.link
  split
  · rfl
  · rw [set_mem, if_neg (h.resolve_left ‹_›)]

/-- The free list after a relink. -/
theorem seg_link {l₁ l₂ : List Nat} {r : Nat} (h : Seg s.next s.freeHead l₁ r) (hl : Seg s.next node l₂ 0)
    (hnodup : (l₁ ++ l₂).Nodup) :
    Seg (s.link (l₁.getLast?.getD 0) node).next (s.link (l₁.getLast?.getD 0) node).freeHead (l₁ ++ l₂) 0 := by
  rw [link_freeHead]
  refine h.link hl hnodup (fun hne => ?_) fun a _ ha => link_mem (.inr (by omega))
  have hlast : l₁.getLast?.getD 0 ≠ 0 := by
    rw [getLast?_eq_getLast_of_ne_nil hne]
    exact h.ne_zero _ (getLast_mem hne)
  rw [State.next, State.link, if_neg hlast, set_mem, if_pos rfl]

/-- The block before a place in the free list. -/
theorem prev_cases (bs : List Block) :
    (frees bs).getLast?.getD 0 = 0 ∨ ∃ b ∈ bs, b.payload = none ∧ b.start = (frees bs).getLast?.getD 0 := by
  cases h : (frees bs).getLast? with
  | none => exact .inl rfl
  | some p =>
    obtain ⟨b, hb, hfree, rfl⟩ := mem_frees (mem_of_getLast? h)
    exact .inr ⟨b, hb, hfree, rfl⟩

end Writes

/-! ## Allocation -/

section Alloc

variable {base : Nat} {s : State} {x y : List Block} {c : Block}

/-- A relink does not touch the size words. -/
theorem link_word {bs : List Block} (h : Filled base bs) (hx : ∀ b ∈ x, b ∈ bs) {b : Block} (hb : b ∈ bs) {node : Nat} :
    (s.link ((frees x).getLast?.getD 0) node).mem b.start = s.mem b.start := by
  apply link_mem
  rcases prev_cases x with h0 | ⟨p, hp, -, hps⟩
  · exact .inl h0
  · refine .inr ?_
    rw [← hps]
    obtain ⟨u, v, rfl⟩ := append_of_mem hb
    rcases mem_row.mp (hx p hp) with rfl | hp
    · omega
    · have hap := h.apart hp
      have hsize := (h.ok b (by simp)).size
      unfold minBlock at hap hsize
      omega

/-- The whole block is taken. -/
theorem take_stored (h : Filled base (x ++ c :: y)) (hs : Stored s (x ++ c :: y)) (hc : c.payload = none) (n : Nat) :
    Stored ((s.link ((frees x).getLast?.getD 0) (s.next c.start)).set c.start c.size)
      (x ++ ([⟨c.start, c.size, some n⟩] ++ y)) := by
  have hap : ∀ a ∈ x ++ y, a.start + minBlock ≤ c.start ∨ c.start + c.size ≤ a.start := fun a ha => h.apart ha
  have hsize := (h.ok c (by simp)).size
  have hnodup := frees_nodup h
  have hlist := hs.list
  unfold minBlock at hap hsize
  rw [frees_append, frees_cons_free hc] at hnodup hlist
  obtain ⟨r, hx, -, -, hy⟩ := seg_append.mp hlist
  constructor
  · refine forall_row (fun b hb => ?_) fun b hb => ?_
    · have hne := hap b hb
      have hmem : b ∈ x ++ c :: y := mem_row.mpr (.inr hb)
      rw [set_mem, if_neg (by omega), link_word h (by simp +contextual) hmem]
      exact hs.words b hmem
    · cases mem_singleton.mp hb
      rw [set_mem, if_pos rfl]
  · rw [frees_append, singleton_append, frees_cons_live (by simp), set_freeHead]
    have hnodup' : (frees x ++ frees y).Nodup :=
      hnodup.sublist (List.Sublist.append (List.Sublist.refl _) (sublist_cons_self _ _))
    refine (seg_link hx hy hnodup').frame fun a ha => ?_
    obtain ⟨b, hb, -, rfl⟩ := mem_frees (frees_append ▸ ha)
    have hne := hap b hb
    rw [set_next, if_neg (by omega)]

/-- The block is split: its beginning is taken, the rest stays free in its place. -/
theorem split_stored (h : Filled base (x ++ c :: y)) (hs : Stored s (x ++ c :: y)) (hc : c.payload = none) {total : Nat}
    (n : Nat) (ht : minBlock ≤ total) (hrest : total + minBlock ≤ c.size) :
    Stored (((((s.set (c.start + total) (c.size - total)).set (c.start + total + 8) (s.next c.start)).link
        ((frees x).getLast?.getD 0) (c.start + total)).set c.start total))
      (x ++ ([⟨c.start, total, some n⟩, ⟨c.start + total, c.size - total, none⟩] ++ y)) := by
  have hap : ∀ a ∈ x ++ y, a.start + minBlock ≤ c.start ∨ c.start + c.size ≤ a.start := fun a ha => h.apart ha
  have hlist := hs.list
  have hnodup := frees_nodup h
  unfold minBlock at hap ht hrest
  rw [frees_append, frees_cons_free hc] at hnodup hlist
  obtain ⟨r, hx, -, -, hy⟩ := seg_append.mp hlist
  generalize htdef : (s.set (c.start + total) (c.size - total)).set (c.start + total + 8) (s.next c.start) = t
  have hfar : ∀ w, w ≠ c.start + total → w ≠ c.start + total + 8 → t.mem w = s.mem w := by
    intro w h₁ h₂
    rw [← htdef, set_mem, if_neg h₂, set_mem, if_neg h₁]
  have hprev : ∀ w, (∀ b ∈ x, w ≠ b.start + 8) →
      (t.link ((frees x).getLast?.getD 0) (c.start + total)).mem w = t.mem w := by
    intro w hw
    apply link_mem
    rcases prev_cases x with h0 | ⟨p, hp, -, hps⟩
    · exact .inl h0
    · exact .inr (hps ▸ hw p hp)
  have hfree : frees (x ++ ([⟨c.start, total, some n⟩, ⟨c.start + total, c.size - total, none⟩] ++ y)) =
      frees x ++ (c.start + total) :: frees y := by
    rw [frees_append, frees_append, append_cancel_left_eq]
    rfl
  constructor
  · refine forall_row (fun b hb => ?_) fun b hb => ?_
    · have hne := hap b hb
      have hmem : b ∈ x ++ c :: y := mem_row.mpr (.inr hb)
      rw [set_mem, if_neg (by omega), link_word h (by simp +contextual) hmem, hfar _ (by omega) (by omega)]
      exact hs.words b hmem
    · rcases mem_cons.mp hb with rfl | hb
      · rw [set_mem, if_pos rfl]
      · cases mem_singleton.mp hb
        show (State.set _ c.start total).mem (c.start + total) = c.size - total
        have hlast : ∀ b ∈ x, c.start + total ≠ b.start + 8 := by
          intro b hb
          have hne := hap b (mem_append_left y hb)
          omega
        rw [set_mem, if_neg (by omega), hprev _ hlast, ← htdef, set_mem, if_neg (by omega), set_mem, if_pos rfl]
  · rw [hfree, set_freeHead]
    have hsame : ∀ a ∈ frees x ++ frees y, t.next a = s.next a ∧ a ≠ c.start + total ∧ a + 8 ≠ c.start := by
      intro a ha
      obtain ⟨b, hb, -, rfl⟩ := mem_frees (frees_append ▸ ha)
      have hne := hap b hb
      exact ⟨hfar _ (by omega) (by omega), by omega, by omega⟩
    have hx' : Seg t.next t.freeHead (frees x) r := by
      rw [← htdef]
      rw [← htdef] at hsame
      exact hx.frame fun a ha => (hsame a (mem_append_left _ ha)).1
    have hy' : Seg t.next (c.start + total) ((c.start + total) :: frees y) 0 := by
      refine ⟨rfl, by omega, ?_⟩
      have hnext : t.next (c.start + total) = s.next c.start := by
        rw [← htdef, set_next, if_pos rfl]
      rw [hnext]
      exact hy.frame fun a ha => (hsame a (mem_append_right _ ha)).1
    have hnodup' : (frees x ++ (c.start + total) :: frees y).Nodup := by
      rw [perm_middle.nodup_iff] at hnodup ⊢
      exact nodup_cons.mpr ⟨fun hmem => (hsame _ hmem).2.1 rfl, (nodup_cons.mp hnodup).2⟩
    refine (seg_link hx' hy' hnodup').frame fun a ha => ?_
    rw [set_next, if_neg]
    rcases mem_cons.mp (perm_middle.mem_iff.mp ha) with rfl | ha
    · omega
    · exact (hsame a ha).2.2

/-- What holds of the heap between the calls, with the row it stands for. -/
structure Heap (base : Nat) (s : State) (bs : List Block) : Prop where
  filled : Filled base bs
  alternating : Alternating bs
  stored : Stored s bs

theorem set_initialized {addr value : Nat} : (s.set addr value).initialized = s.initialized := rfl

theorem link_initialized {prev node : Nat} : (s.link prev node).initialized = s.initialized := by
  unfold State.link
  split <;> rfl

/-- A live block of the row in the place of a free one, with a free rest or none. -/
theorem Heap.replace_free {s' : State} {zs : List Block} {n total : Nat} (h : Heap base s (x ++ c :: y))
    (hc : c.payload = none) (hs : Stored s' (x ++ (⟨c.start, total, some n⟩ :: zs ++ y)))
    (hok : (⟨c.start, total, some n⟩ : Block).Ok) (hzs : ∀ z ∈ zs, z.Ok)
    (htiles : Tiles (c.start + total) zs (c.start + c.size)) (hrest : Alternating (zs ++ y)) (hlives : lives zs = []) :
    Heap base s' (x ++ (⟨c.start, total, some n⟩ :: zs ++ y)) ∧
      (lives (x ++ (⟨c.start, total, some n⟩ :: zs ++ y))).Perm
        ((c.start + headerSize, n) :: lives (x ++ c :: y)) := by
  refine ⟨⟨?_, ?_, hs⟩, ?_⟩
  · have hfilled : Filled base (x ++ ([c] ++ y)) := h.filled
    refine hfilled.replace ?_ ?_
    · rintro lo hi ⟨rfl, rfl⟩
      exact ⟨rfl, htiles⟩
    · intro z hz
      rcases mem_cons.mp hz with rfl | hz
      · exact hok
      · exact hzs z hz
  · rw [cons_append, alternating_live (by simp)]
    exact ⟨(isChain_append.mp h.alternating).1, hrest⟩
  · rw [lives_append, cons_append, lives_cons_live rfl, lives_append, hlives, nil_append, lives_append,
      lives_cons_free hc]
    exact perm_middle

/-- An allocation ends, and takes nothing or a new live block. -/
theorem alloc_keeps {bs : List Block} (h : Heap base s bs) (hinit : s.initialized = true) (layout : Layout) :
    ∃ s' p, alloc base s layout = some (s', p) ∧ s'.initialized = true ∧
      (p = 0 ∧ s' = s ∨ p ≠ 0 ∧ ∃ bs', Heap base s' bs' ∧ (lives bs').Perm ((p, layout.size) :: lives bs)) := by
  obtain ⟨hfit, hmin, hdvd⟩ := totalSize_spec layout
  obtain ⟨l₁, l₂, hl, hwalk, -, hstop⟩ :=
    @walk_spec s.next (fun node => decide (s.mem node ≥ layout.totalSize)) _ hops 0 _ h.stored.list
      (frees_length_lt h.filled)
  unfold alloc
  simp only [hinit, if_true, hwalk]
  cases l₂ with
  | nil => exact ⟨s, 0, rfl, hinit, .inl ⟨rfl, rfl⟩⟩
  | cons p l₂ =>
    obtain ⟨x, c, y, rfl, hc, rfl, rfl, rfl⟩ := frees_split hl
    have hne : c.start ≠ 0 := h.stored.list.ne_zero c.start (by rw [hl]; simp)
    have hsize : s.mem c.start = c.size := h.stored.words c (by simp)
    have hbig : layout.totalSize ≤ c.size := by
      have := hstop c.start rfl
      rwa [decide_eq_true_eq, hsize] at this
    have hok := h.filled.ok c (by simp)
    have hrest : Alternating (c :: y) := (isChain_append.mp h.alternating).2.1
    simp only [head?_cons, Option.getD_some, if_neg hne, hsize]
    by_cases hrem : c.size - layout.totalSize ≥ minBlock
    · have hsplit : layout.totalSize + minBlock ≤ c.size := by
        unfold minBlock at hrem ⊢
        omega
      have hnext : (s.set (c.start + layout.totalSize) (c.size - layout.totalSize)).next c.start = s.next c.start := by
        unfold minBlock at hmin
        rw [set_next, if_neg (by omega)]
      rw [if_pos hrem, hnext]
      refine ⟨_, _, rfl, ?_, .inr ⟨by simp [headerSize], _, h.replace_free hc
        (split_stored h.filled h.stored hc layout.size hmin hsplit) ⟨hmin, hdvd, ?_⟩ ?_ ?_ ?_ rfl⟩⟩
      · rw [set_initialized, link_initialized]
        exact hinit
      · rintro n ⟨⟩
        exact hfit
      · intro z hz
        cases mem_singleton.mp hz
        exact ⟨hrem, (Nat.dvd_sub hok.aligned hdvd), by simp⟩
      · refine ⟨rfl, ?_⟩
        show c.start + layout.totalSize + (c.size - layout.totalSize) = c.start + c.size
        omega
      · exact (alternating_free rfl).mpr ((alternating_free hc).mp hrest)
    · rw [if_neg hrem]
      refine ⟨_, _, rfl, ?_, .inr ⟨by simp [headerSize], _, h.replace_free hc
        (take_stored h.filled h.stored hc layout.size) ⟨hok.size, hok.aligned, ?_⟩ (by simp) rfl ?_ rfl⟩⟩
      · rw [set_initialized, link_initialized]
        exact hinit
      · rintro n ⟨⟩
        exact Nat.le_trans hfit hbig
      · exact ((alternating_free hc).mp hrest).1

end Alloc

/-! ## Deallocation -/

section Dealloc

variable {base : Nat} {s : State} {x y : List Block} {a b : Block}

/-- Two free neighbours become one. -/
theorem coalesce_stored (h : Filled base (x ++ a :: b :: y)) (hs : Stored s (x ++ a :: b :: y))
    (ha : a.payload = none) (hb : b.payload = none) :
    Stored (coalesce s a.start b.start) (x ++ ([⟨a.start, a.size + b.size, none⟩] ++ y)) := by
  obtain ⟨m, -, -, htouch, -⟩ := tiles_append.mp h.tiles
  have hapart : ∀ c ∈ x ++ y, c.start + minBlock ≤ a.start ∨ a.start + a.size + b.size ≤ c.start := by
    intro c hc
    have h₁ : c.start + minBlock ≤ a.start ∨ a.start + a.size ≤ c.start := h.apart (by
      rcases mem_append.mp hc with hc | hc <;> simp [hc])
    have h' : Filled base ((x ++ [a]) ++ b :: y) := by simpa using h
    have h₂ : c.start + minBlock ≤ b.start ∨ b.start + b.size ≤ c.start := h'.apart (by
      rcases mem_append.mp hc with hc | hc <;> simp [hc])
    unfold minBlock at *
    omega
  have hwa : s.mem a.start = a.size := hs.words a (by simp)
  have hwb : s.mem b.start = b.size := hs.words b (by simp)
  have hsa := (h.ok a (by simp)).size
  have hsb := (h.ok b (by simp)).size
  have hlist := hs.list
  unfold minBlock at hapart hsa hsb
  rw [frees_append, frees_cons_free ha, frees_cons_free hb] at hlist
  obtain ⟨r, hx, hr, ha0, -, -, hy⟩ := seg_append.mp hlist
  have hco : coalesce s a.start b.start =
      (s.set a.start (a.size + b.size)).set (a.start + 8) (s.next b.start) := by
    rw [coalesce, if_pos (by rw [hwa]; exact htouch.symm)]
    simp only [hwa, hwb]
    rw [set_next, if_neg (by omega)]
  rw [hco]
  constructor
  · refine forall_row (fun c hc => ?_) fun c hc => ?_
    · have hne := hapart c hc
      rw [set_mem, if_neg (by omega), set_mem, if_neg (by omega)]
      refine hs.words c ?_
      rcases mem_append.mp hc with hc | hc <;> simp [hc]
    · cases mem_singleton.mp hc
      show (State.set _ (a.start + 8) (s.next b.start)).mem a.start = a.size + b.size
      rw [set_mem, if_neg (by omega), set_mem, if_pos rfl]
  · have hsame : ∀ p ∈ frees x ++ frees y,
        ((s.set a.start (a.size + b.size)).set (a.start + 8) (s.next b.start)).next p = s.next p := by
      intro p hp
      obtain ⟨c, hc, -, rfl⟩ := mem_frees (frees_append ▸ hp)
      have hne := hapart c hc
      rw [set_next, if_neg (by omega), set_next, if_neg (by omega)]
    rw [frees_append, singleton_append, frees_cons_free rfl]
    refine seg_append.mpr ⟨r, hx.frame fun p hp => hsame p (mem_append_left _ hp), hr, ha0, ?_⟩
    show Seg _ (State.next _ a.start) _ 0
    rw [set_next, if_pos rfl]
    exact hy.frame fun p hp => hsame p (mem_append_right _ hp)

theorem coalesce_initialized {p q : Nat} {P : Prop} [Decidable P] :
    (if P then coalesce s p q else s).initialized = s.initialized := by
  unfold coalesce
  split
  · split <;> rfl
  · rfl

theorem coalesce_apart {p q : Nat} (h : p + s.mem p ≠ q) : coalesce s p q = s := if_neg h

theorem coalesce_filled (h : Filled base (x ++ a :: b :: y)) :
    Filled base (x ++ ([⟨a.start, a.size + b.size, none⟩] ++ y)) := by
  have h' : Filled base (x ++ ([a, b] ++ y)) := h
  have hoka := h.ok a (by simp)
  have hokb := h.ok b (by simp)
  refine h'.replace ?_ ?_
  · rintro lo hi ⟨rfl, hb, rfl⟩
    refine ⟨rfl, ?_⟩
    show a.start + (a.size + b.size) = b.start + b.size
    omega
  · intro z hz
    cases mem_singleton.mp hz
    exact ⟨Nat.le_trans hoka.size (Nat.le_add_right _ _), Nat.dvd_add hoka.aligned hokb.aligned, by simp⟩

/-- The place of a live block in the free list. -/
theorem split_unique {l₁ l₂ m₁ m₂ : List Nat} {t : Nat} (h : l₁ ++ l₂ = m₁ ++ m₂) (hl₁ : ∀ p ∈ l₁, p < t)
    (hm₁ : ∀ p ∈ m₁, p < t) (hl₂ : ∀ p ∈ l₂.head?, t ≤ p) (hm₂ : ∀ p ∈ m₂.head?, t ≤ p) : l₁ = m₁ ∧ l₂ = m₂ := by
  rcases append_eq_append_iff.mp h with ⟨c, rfl, rfl⟩ | ⟨c, rfl, rfl⟩
  · cases c with
    | nil => simp
    | cons p c =>
      have h₁ := hm₁ p (by simp)
      have h₂ := hl₂ p (by simp)
      omega
  · cases c with
    | nil => simp
    | cons p c =>
      have h₁ := hl₁ p (by simp)
      have h₂ := hm₂ p (by simp)
      omega

/-- The free list below and above a block. -/
theorem frees_below (h : Filled base (x ++ b :: y)) :
    (∀ p ∈ frees x, p < b.start) ∧ ∀ p ∈ frees y, b.start + b.size ≤ p := by
  obtain ⟨m, hx, hb, hy⟩ := tiles_append.mp h.tiles
  constructor
  · intro p hp
    obtain ⟨c, hc, -, rfl⟩ := mem_frees hp
    have hle := (hx.bounds.2 c hc).2
    have hsize := (h.ok c (by simp [hc])).size
    unfold minBlock at hsize
    omega
  · intro p hp
    obtain ⟨c, hc, -, rfl⟩ := mem_frees hp
    exact (hy.bounds.2 c hc).1

/-- The block is put back into the free list. -/
theorem insert_stored (h : Filled base (x ++ b :: y)) (hs : Stored s (x ++ b :: y)) (hb : b.payload ≠ none)
    (h0 : b.start ≠ 0) :
    Stored ((s.set (b.start + 8) ((frees y).head?.getD 0)).link ((frees x).getLast?.getD 0) b.start)
      (x ++ ⟨b.start, b.size, none⟩ :: y) := by
  have hap : ∀ a ∈ x ++ y, a.start + minBlock ≤ b.start ∨ b.start + b.size ≤ a.start := fun a ha => h.apart ha
  have hsize := (h.ok b (by simp)).size
  have hnodup := frees_nodup h
  have hlist := hs.list
  unfold minBlock at hap hsize
  rw [frees_append, frees_cons_live hb] at hnodup hlist
  obtain ⟨r, hx, hy⟩ := seg_append.mp hlist
  have hword : ∀ c ∈ x ++ b :: y, ((s.set (b.start + 8) ((frees y).head?.getD 0)).link ((frees x).getLast?.getD 0)
      b.start).mem c.start = c.size := by
    intro c hc
    have hne : c.start ≠ b.start + 8 := by
      rcases mem_row.mp hc with rfl | hc
      · omega
      · have := hap c hc
        omega
    rw [link_word h (by simp +contextual) hc, set_mem, if_neg hne]
    exact hs.words c hc
  constructor
  · intro c hc
    rcases mem_row.mp hc with rfl | hc
    · exact hword b (by simp)
    · exact hword c (mem_row.mpr (.inr hc))
  · have hsame : ∀ p ∈ frees x ++ frees y, (s.set (b.start + 8) ((frees y).head?.getD 0)).next p = s.next p ∧
        p ≠ b.start := by
      intro p hp
      obtain ⟨c, hc, -, rfl⟩ := mem_frees (frees_append ▸ hp)
      have hne := hap c hc
      exact ⟨by rw [set_next, if_neg (by omega)], by omega⟩
    rw [frees_append, frees_cons_free rfl]
    refine seg_link (hx.frame fun p hp => (hsame p (mem_append_left _ hp)).1) ⟨rfl, h0, ?_⟩ ?_
    · obtain rfl := hy.head
      rw [set_next, if_pos rfl]
      exact hy.frame fun p hp => (hsame p (mem_append_right _ hp)).1
    · rw [perm_middle.nodup_iff]
      exact nodup_cons.mpr ⟨fun hmem => (hsame _ hmem).2 rfl, hnodup⟩

/-- Joining with the block behind: afterwards the next block is not free. -/
theorem join_behind (h : Filled base (x ++ b :: y)) (hs : Stored s (x ++ b :: y)) (hb : b.payload = none)
    (hy : Alternating y) : ∃ c y', Filled base (x ++ c :: y') ∧
      Stored (if (frees y).head?.getD 0 ≠ 0 then coalesce s b.start ((frees y).head?.getD 0) else s) (x ++ c :: y') ∧
      c.start = b.start ∧ c.payload = none ∧ Alternating (c :: y') ∧ lives y' = lives y := by
  have hword : s.mem b.start = b.size := hs.words b (by simp)
  cases y with
  | nil => exact ⟨b, [], h, hs, rfl, hb, isChain_singleton b, rfl⟩
  | cons n y =>
    by_cases hn : n.payload = none
    · have h0 : n.start ≠ 0 := hs.list.ne_zero n.start (by
        rw [frees_append, frees_cons_free hb, frees_cons_free hn]
        simp)
      refine ⟨⟨b.start, b.size + n.size, none⟩, y, coalesce_filled h, ?_, rfl, rfl, ?_, ?_⟩
      · rw [frees_cons_free hn, head?_cons, Option.getD_some, if_pos h0]
        exact coalesce_stored h hs hb hn
      · exact (alternating_free rfl).mpr ((alternating_free hn).mp hy)
      · rw [lives_cons_free hn]
    · refine ⟨b, n :: y, h, ?_, rfl, hb, (alternating_free hb).mpr ⟨hy, by simpa using hn⟩, rfl⟩
      split
      · rename_i hne
        -- the next free block stands behind a live one
        have h' : Filled base ((x ++ [b]) ++ n :: y) := by simpa using h
        obtain ⟨m, -, -, hnb, -⟩ := tiles_append.mp h.tiles
        have hsize := (h.ok n (by simp)).size
        rw [frees_cons_live hn] at hne ⊢
        have hmem : (frees y).head?.getD 0 ∈ frees y := by
          cases hf : frees y with
          | nil => simp [hf] at hne
          | cons p l => simp
        have hfar := (frees_below h').2 _ hmem
        unfold minBlock at hsize
        rw [coalesce_apart (by omega)]
        exact hs
      · exact hs

/-- Joining with the block before: afterwards no neighbours are free. -/
theorem join_before (h : Filled base (x ++ b :: y)) (hs : Stored s (x ++ b :: y)) (hb : b.payload = none)
    (hx : Alternating x) (hy : Alternating (b :: y)) : ∃ bs',
      Heap base (if (frees x).getLast?.getD 0 ≠ 0 then coalesce s ((frees x).getLast?.getD 0) b.start else s) bs' ∧
      lives bs' = lives x ++ lives y := by
  rcases eq_nil_or_concat x with rfl | ⟨x, p, rfl⟩
  · exact ⟨b :: y, ⟨h, hy, hs⟩, lives_cons_free hb⟩
  · rw [concat_eq_append] at *
    have hword : s.mem p.start = p.size := hs.words p (by simp)
    by_cases hp : p.payload = none
    · have hlast : (frees (x ++ [p])).getLast?.getD 0 = p.start := by
        rw [frees_append, frees_cons_free hp, getLast?_append]
        rfl
      have h0 : p.start ≠ 0 := hs.list.ne_zero p.start (by
        rw [frees_append, frees_append, frees_cons_free hp]
        simp)
      have h' : Filled base (x ++ p :: b :: y) := by simpa using h
      have hs' : Stored s (x ++ p :: b :: y) := by simpa using hs
      rw [hlast, if_pos h0]
      refine ⟨_, ⟨coalesce_filled h', ?_, coalesce_stored h' hs' hp hb⟩, ?_⟩
      · obtain ⟨hx', -, hjunction⟩ := isChain_append.mp hx
        refine isChain_append.mpr ⟨hx', (alternating_free rfl).mpr ((alternating_free hb).mp hy), ?_⟩
        intro q hq c hc
        cases hc
        exact .inl ((hjunction q hq p rfl).resolve_right (by simp [hp]))
      · rw [lives_append, singleton_append, lives_cons_free rfl, lives_append, lives_cons_free hp]
        simp [lives]
    · refine ⟨x ++ [p] ++ b :: y, ⟨h, ?_, ?_⟩, ?_⟩
      · refine isChain_append.mpr ⟨hx, hy, ?_⟩
        intro q hq c _
        rw [getLast?_append, getLast?_singleton] at hq
        cases hq
        exact .inl hp
      · split
        · rename_i hne
          rw [frees_append, frees_cons_live hp] at hne ⊢
          have hnil : frees [] = [] := rfl
          rw [hnil, append_nil] at hne ⊢
          -- the free block before stands before a live one
          obtain ⟨q, hq, -, hqs⟩ := (prev_cases x).resolve_left hne
          have h' : Filled base (x ++ p :: b :: y) := by simpa using h
          obtain ⟨m, hx', hpm, hbp, -⟩ := tiles_append.mp h'.tiles
          have hend := (hx'.bounds.2 q hq).2
          have hsize := (h'.ok p (by simp)).size
          have hwq : s.mem q.start = q.size := hs.words q (by simp [hq])
          unfold minBlock at hsize
          rw [← hqs, coalesce_apart (by omega)]
          exact hs
        · exact hs
      · rw [lives_append, lives_cons_free hb]

/-- Freeing a live pointer ends, and leaves the other live blocks. -/
theorem dealloc_keeps {bs : List Block} (hbase : base ≠ 0) (h : Heap base s bs) {q : Nat × Nat} (hq : q ∈ lives bs) :
    ∃ s', dealloc s q.1 = some s' ∧ s'.initialized = s.initialized ∧
      ∃ bs', Heap base s' bs' ∧ (lives bs).Perm (q :: lives bs') := by
  obtain ⟨b, hb, hpay⟩ := mem_filterMap.mp hq
  obtain ⟨n, hn, rfl⟩ := Option.map_eq_some_iff.mp hpay
  obtain ⟨x, y, rfl⟩ := append_of_mem hb
  have hlive : b.payload ≠ none := by simp [hn]
  have h0 : b.start ≠ 0 := by
    have := (h.filled.tiles.bounds.2 b hb).1
    omega
  have hself : s.set b.start (s.mem b.start) = s := by
    unfold State.set
    rw [Function.update_eq_self]
  obtain ⟨hbelow, habove⟩ := frees_below h.filled
  have hlist := h.stored.list
  obtain ⟨l₁, l₂, hl, hwalk, hno, hyes⟩ :=
    @walk_spec s.next (fun node => decide (b.start ≤ node)) _ hops 0 _ hlist (frees_length_lt h.filled)
  rw [frees_append, frees_cons_live hlive] at hl
  obtain ⟨rfl, rfl⟩ : frees x = l₁ ∧ frees y = l₂ := by
    refine split_unique hl hbelow (fun p hp => ?_) (fun p hp => ?_) fun p hp => ?_
    · have := hno p hp
      simpa using this
    · have := habove p (mem_of_mem_head? hp)
      omega
    · simpa using hyes p hp
  obtain ⟨hx, hy⟩ := (alternating_live hlive).mp h.alternating
  have hfilled : Filled base (x ++ ⟨b.start, b.size, none⟩ :: y) := by
    have h' : Filled base (x ++ ([b] ++ y)) := h.filled
    have hok := h.filled.ok b hb
    refine @Filled.replace base x y [b] [⟨b.start, b.size, none⟩] h' (fun ht => ht) fun z hz => ?_
    cases mem_singleton.mp hz
    exact ⟨hok.size, hok.aligned, by simp⟩
  obtain ⟨c, y', hfilled', hstored', hstart, hfree, halt, hlives⟩ :=
    join_behind hfilled (insert_stored h.filled h.stored hlive h0) rfl hy
  obtain ⟨bs', hheap, hlives'⟩ := join_before hfilled' hstored' hfree hx halt
  rw [hstart] at hheap
  unfold dealloc
  rw [if_neg (by simp [headerSize])]
  simp only [Nat.add_sub_cancel, hself, hwalk]
  refine ⟨_, rfl, ?_, bs', hheap, ?_⟩
  · rw [coalesce_initialized, coalesce_initialized, link_initialized]
    rfl
  · rw [lives_append, lives_cons_live hn, hlives', hlives]
    exact perm_middle

end Dealloc

/-! ## Runs -/

/-- The allocator with the pointers its callers hold, each with the size it was asked for. -/
structure Config where
  state : State
  live : List (Nat × Nat)

/-- What the callers do: a write is to a word of a payload. -/
inductive Call where
  | alloc (layout : Layout)
  | dealloc (ptr size : Nat)
  | write (addr value : Nat)

/-- Callers free only live pointers, with the size they asked for, and write only inside live payloads. -/
def Legal (c : Config) : Call → Prop
  | .alloc _ => True
  | .dealloc ptr size => (ptr, size) ∈ c.live
  | .write addr _ => ∃ q ∈ c.live, q.1 ≤ addr ∧ addr < q.1 + q.2

/-- One call, with the pointers held after it. -/
def exec (base : Nat) (c : Config) : Call → Option Config
  | .alloc layout =>
    match alloc base c.state layout with
    | none => none
    | some (s, ptr) => some ⟨s, if ptr = 0 then c.live else (ptr, layout.size) :: c.live⟩
  | .dealloc ptr size =>
    match dealloc c.state ptr with
    | none => none
    | some s => some ⟨s, c.live.erase (ptr, size)⟩
  | .write addr value => some ⟨c.state.set addr value, c.live⟩

/-- Before the first call, whatever the memory holds. -/
def Fresh (c : Config) : Prop := c.state.freeHead = 0 ∧ c.state.initialized = false ∧ c.live = []

/-- The sequences of legal calls. -/
inductive Run (base : Nat) : List Call → Config → Prop
  | start {c : Config} : Fresh c → Run base [] c
  | call {calls : List Call} {c c' : Config} {k : Call} :
    Run base calls c → Legal c k → exec base c k = some c' → Run base (calls ++ [k]) c'

/-- The heap is set up and the callers hold its live payloads. -/
def SetUp (base : Nat) (c : Config) : Prop :=
  c.state.initialized = true ∧ ∃ bs, Heap base c.state bs ∧ (lives bs).Perm c.live

section Runs

variable {base : Nat} {s : State} {c c' : Config} {k : Call} {calls : List Call}

theorem init_heap (hbase : base ≠ 0) (s : State) : Heap base (init base s) [⟨base, heapSize, none⟩] := by
  refine ⟨⟨⟨rfl, rfl⟩, ?_⟩, isChain_singleton _, ?_, rfl, hbase, ?_⟩
  · intro b hb
    cases mem_singleton.mp hb
    exact ⟨show minBlock ≤ heapSize by decide, show 16 ∣ heapSize by decide, by simp⟩
  · intro b hb
    cases mem_singleton.mp hb
    show ((s.set base heapSize).set (base + 8) 0).mem base = heapSize
    rw [set_mem, if_neg (by omega), set_mem, if_pos rfl]
  · show ((s.set base heapSize).set (base + 8) 0).next base = 0
    rw [set_next, if_pos rfl]

/-- A write into a payload. -/
theorem write_keeps {bs : List Block} (h : Heap base s bs) {q : Nat × Nat} (hq : q ∈ lives bs) {addr value : Nat}
    (hlo : q.1 ≤ addr) (hhi : addr < q.1 + q.2) : Heap base (s.set addr value) bs := by
  obtain ⟨b, hb, hpay⟩ := mem_filterMap.mp hq
  obtain ⟨n, hn, rfl⟩ := Option.map_eq_some_iff.mp hpay
  obtain ⟨x, y, rfl⟩ := append_of_mem hb
  have hfits := (h.filled.ok b hb).fits n hn
  have hfar : ∀ a ∈ x ++ b :: y, a.start ≠ addr ∧ (a.payload = none → a.start + 8 ≠ addr) := by
    intro a ha
    unfold headerSize at hfits hlo hhi
    rcases mem_row.mp ha with rfl | ha
    · exact ⟨by omega, fun hnone => by rw [hn] at hnone; cases hnone⟩
    · have hap := h.filled.apart ha
      unfold minBlock at hap
      exact ⟨by omega, fun _ => by omega⟩
  refine ⟨h.filled, h.alternating, fun a ha => ?_, ?_⟩
  · rw [set_mem, if_neg (hfar a ha).1]
    exact h.stored.words a ha
  · refine h.stored.list.frame fun p hp => ?_
    obtain ⟨a, ha, hfree, rfl⟩ := mem_frees hp
    rw [set_next, if_neg ((hfar a ha).2 hfree)]

theorem alloc_setUp (hinit : s.initialized = true) {bs : List Block} (h : Heap base s bs) {live : List (Nat × Nat)}
    (hlive : (lives bs).Perm live) (layout : Layout) :
    ∃ c', exec base ⟨s, live⟩ (.alloc layout) = some c' ∧ SetUp base c' := by
  obtain ⟨s', p, halloc, hinit', hcases⟩ := alloc_keeps h hinit layout
  rw [exec, halloc]
  refine ⟨_, rfl, hinit', ?_⟩
  rcases hcases with ⟨rfl, rfl⟩ | ⟨hp, bs', hheap, hperm⟩
  · exact ⟨bs, h, hlive⟩
  · refine ⟨bs', hheap, ?_⟩
    show (lives bs').Perm (if p = 0 then live else (p, layout.size) :: live)
    rw [if_neg hp]
    exact hperm.trans (hlive.cons _)

/-- Every legal call ends and keeps the heap. -/
theorem exec_keeps (hbase : base ≠ 0) (h : SetUp base c) (hk : Legal c k) :
    ∃ c', exec base c k = some c' ∧ SetUp base c' := by
  obtain ⟨hinit, bs, hheap, hperm⟩ := h
  cases k with
  | alloc layout => exact alloc_setUp hinit hheap hperm layout
  | dealloc ptr size =>
    obtain ⟨s', hdealloc, hinit', bs', hheap', hperm'⟩ := dealloc_keeps hbase hheap (hperm.mem_iff.mpr hk)
    rw [exec, hdealloc]
    refine ⟨_, rfl, hinit'.trans hinit, bs', hheap', ?_⟩
    have herase := (hperm'.symm.trans hperm).erase (ptr, size)
    rwa [erase_cons_head] at herase
  | write addr value =>
    obtain ⟨q, hq, hlo, hhi⟩ := hk
    exact ⟨_, rfl, hinit, bs, write_keeps hheap (hperm.mem_iff.mpr hq) hlo hhi, hperm⟩

/-- The first call is an allocation, which sets up the heap. -/
theorem exec_fresh (hbase : base ≠ 0) (h : Fresh c) (hk : Legal c k) :
    ∃ c', exec base c k = some c' ∧ SetUp base c' := by
  obtain ⟨-, hinit, hlive⟩ := h
  cases k with
  | alloc layout =>
    have hsame : exec base c (.alloc layout) = exec base ⟨init base c.state, []⟩ (.alloc layout) := by
      unfold exec alloc
      rw [hinit, hlive]
      rfl
    rw [hsame]
    exact alloc_setUp rfl (init_heap hbase c.state) (List.Perm.refl _) layout
  | dealloc ptr size =>
    rw [Legal, hlive] at hk
    cases hk
  | write addr value =>
    obtain ⟨q, hq, -⟩ := hk
    rw [hlive] at hq
    cases hq

theorem run_setUp (hbase : base ≠ 0) (h : Run base calls c) : calls = [] ∧ Fresh c ∨ SetUp base c := by
  induction h with
  | start hfresh => exact .inl ⟨rfl, hfresh⟩
  | call _ hk hexec ih =>
    obtain ⟨c', hc', hset⟩ : ∃ c', exec base _ _ = some c' ∧ SetUp base c' := by
      rcases ih with ⟨-, hfresh⟩ | hset
      · exact exec_fresh hbase hfresh hk
      · exact exec_keeps hbase hset hk
    cases hexec.symm.trans hc'
    exact .inr hset

end Runs

/-! ## The invariant -/

/-- Behind every free block there is a live one. -/
theorem frees_apart {hi : Nat} : ∀ {lo : Nat} {bs : List Block}, Tiles lo bs hi → (∀ b ∈ bs, b.Ok) → Alternating bs →
    (bs.filter fun b => b.payload.isNone).Pairwise fun a b => a.start + a.size < b.start
  | _, [], _, _, _ => .nil
  | _, b :: bs, ⟨_, h⟩, hok, halt => by
    have ih := frees_apart h (fun c hc => hok c (mem_cons_of_mem _ hc)) halt.tail
    by_cases hb : b.payload = none
    · rw [filter_cons_of_pos (by simp [hb])]
      refine pairwise_cons.mpr ⟨fun c hc => ?_, ih⟩
      obtain ⟨-, hhead⟩ := (alternating_free hb).mp halt
      obtain ⟨hmem, hfree⟩ := mem_filter.mp hc
      cases bs with
      | nil => cases hmem
      | cons d bs =>
        have hd := hhead d rfl
        rcases mem_cons.mp hmem with rfl | hmem
        · simp [hd] at hfree
        · have hsize := (hok d (by simp)).size
          have hbound := (h.2.bounds.2 c hmem).1
          have hstart := h.1
          unfold minBlock at hsize
          omega
    · rw [filter_cons_of_neg (by simpa [Option.isNone_iff_eq_none] using hb)]
      exact ih

/-- The live payloads are apart and inside. -/
theorem lives_apart {hi : Nat} : ∀ {lo : Nat} {bs : List Block}, Tiles lo bs hi → (∀ b ∈ bs, b.Ok) →
    (∀ q ∈ lives bs, lo ≤ q.1 ∧ q.1 + q.2 ≤ hi) ∧ (lives bs).Pairwise fun p q => p.1 + p.2 ≤ q.1
  | _, [], _, _ => ⟨by simp [lives], .nil⟩
  | lo, b :: bs, ⟨hb, h⟩, hok => by
    obtain ⟨hin, hpair⟩ := lives_apart h fun c hc => hok c (mem_cons_of_mem _ hc)
    have hle := h.bounds.1
    cases hpay : b.payload with
    | none =>
      rw [lives_cons_free hpay]
      refine ⟨fun q hq => ?_, hpair⟩
      have := hin q hq
      omega
    | some n =>
      have hfits := (hok b mem_cons_self).fits n hpay
      rw [lives_cons_live hpay]
      refine ⟨fun q hq => ?_, pairwise_cons.mpr ⟨fun q hq => ?_, hpair⟩⟩
      · rcases mem_cons.mp hq with rfl | hq
        · exact ⟨by omega, by show b.start + headerSize + n ≤ hi; omega⟩
        · have := hin q hq
          omega
      · have := (hin q hq).1
        show b.start + headerSize + n ≤ q.1
        omega

/-- Free and live blocks together are as large as the row. -/
theorem sizes_sum {s : State} {hi : Nat} : ∀ {lo : Nat} {bs : List Block}, Tiles lo bs hi →
    (∀ b ∈ bs, s.mem b.start = b.size) →
    lo + (((bs.filter fun b => b.payload.isNone).map (·.size)).sum +
      ((lives bs).map fun q => s.mem (q.1 - headerSize)).sum) = hi
  | _, [], h, _ => h
  | _, b :: bs, ⟨hb, h⟩, hw => by
    have ih := sizes_sum h fun c hc => hw c (mem_cons_of_mem _ hc)
    have hword := hw b mem_cons_self
    cases hpay : b.payload with
    | none =>
      rw [lives_cons_free hpay, filter_cons_of_pos (by simp [hpay]), map_cons, sum_cons]
      omega
    | some n =>
      rw [lives_cons_live hpay, filter_cons_of_neg (by simp [hpay]), map_cons, sum_cons,
        Nat.add_sub_cancel, hword]
      omega

/-- With nothing live the row is one free block. -/
theorem row_of_no_lives {base : Nat} {bs : List Block} (h : Filled base bs) (halt : Alternating bs)
    (hnone : lives bs = []) : bs = [⟨base, heapSize, none⟩] := by
  have hfree : ∀ b ∈ bs, b.payload = none := by
    intro b hb
    have hno := filterMap_eq_nil_iff.mp hnone b hb
    simpa using hno
  obtain ⟨ht, hok⟩ := h
  cases bs with
  | nil =>
    have hzero : base = base + heapSize := ht
    unfold heapSize at hzero
    omega
  | cons b bs =>
    cases bs with
    | nil =>
      obtain ⟨hstart, hend⟩ := ht
      have hsize : b.start + b.size = base + heapSize := hend
      have hpay := hfree b mem_cons_self
      obtain ⟨start, size, payload⟩ := b
      simp only at hstart hsize hpay
      have : size = heapSize := by omega
      rw [hstart, this, hpay]
    | cons d bs =>
      obtain ⟨-, hhead⟩ := (alternating_free (hfree b (by simp))).mp halt
      exact absurd (hfree d (by simp)) (hhead d rfl)

/-- The free list as the memory holds it: addresses and sizes. -/
structure FreeList (s : State) (free : List (Nat × Nat)) : Prop where
  list : Seg s.next s.freeHead (free.map Prod.fst) 0
  sizes : ∀ f ∈ free, s.mem f.1 = f.2

/-- The heap invariant, with the free list. -/
structure HeapInvariant (base : Nat) (c : Config) (free : List (Nat × Nat)) : Prop where
  freeList : FreeList c.state free
  /-- sorted by address, and no two blocks touch -/
  apart : free.Pairwise fun a b => a.1 + a.2 < b.1
  disjoint : c.live.Pairwise fun p q => p.1 + p.2 ≤ q.1 ∨ q.1 + q.2 ≤ p.1
  inside : ∀ q ∈ c.live, base ≤ q.1 ∧ q.1 + q.2 ≤ base + heapSize
  /-- free bytes and allocated bytes, as the headers of the live blocks have them -/
  bytes : (free.map Prod.snd).sum + (c.live.map fun q => c.state.mem (q.1 - headerSize)).sum = heapSize
  whole : c.live = [] → free = [(base, heapSize)]

theorem invariant_of_heap {base : Nat} {c : Config} (h : SetUp base c) : ∃ free, HeapInvariant base c free := by
  obtain ⟨-, bs, hheap, hperm⟩ := h
  obtain ⟨hin, hpair⟩ := lives_apart hheap.filled.tiles hheap.filled.ok
  refine ⟨(bs.filter fun b => b.payload.isNone).map fun b => (b.start, b.size), ⟨?_, ?_⟩, ?_, ?_, ?_, ?_, ?_⟩
  · rw [map_map]
    exact hheap.stored.list
  · intro f hf
    obtain ⟨b, hb, rfl⟩ := mem_map.mp hf
    exact hheap.stored.words b (mem_filter.mp hb).1
  · rw [pairwise_map]
    exact frees_apart hheap.filled.tiles hheap.filled.ok hheap.alternating
  · refine (hperm.pairwise_iff ?_).mp (hpair.imp .inl)
    exact fun h => h.symm
  · exact fun q hq => hin q (hperm.mem_iff.mpr hq)
  · have hsum := sizes_sum hheap.filled.tiles hheap.stored.words
    rw [((hperm.map fun q => c.state.mem (q.1 - headerSize)).sum_nat)] at hsum
    rw [map_map]
    exact Nat.add_left_cancel hsum
  · intro hnil
    rw [hnil] at hperm
    rw [row_of_no_lives hheap.filled hheap.alternating hperm.eq_nil]
    rfl

/-- HEAP INVARIANT: it holds after every sequence of legal calls that is not empty, and the next legal call ends. -/
theorem compositor_heap_invariant {base : Nat} (hbase : base ≠ 0) {calls : List Call} {c : Config}
    (h : Run base calls c) (hne : calls ≠ []) :
    (∃ free, HeapInvariant base c free) ∧ ∀ k, Legal c k → (exec base c k).isSome := by
  have hset := (run_setUp hbase h).resolve_left fun hnil => hne hnil.1
  refine ⟨invariant_of_heap hset, fun k hk => ?_⟩
  obtain ⟨c', hexec, -⟩ := exec_keeps hbase hset hk
  rw [hexec]
  rfl

/-- One byte. -/
def oneByte : Layout := ⟨1, 0, by decide⟩

/-- A heap that was never used. -/
def unused : Config := ⟨⟨fun _ => 0, 0, false⟩, []⟩

/-- Two blocks are split off and freed, the first into the list and the second between two free neighbours: the heap
    is one block again. -/
theorem compositor_heap_invariant_merge : ∃ c,
    Run 4096 [.alloc oneByte, .alloc oneByte, .dealloc 4112 1, .dealloc 4144 1] c ∧ c.live = [] ∧
      (∃ free, HeapInvariant 4096 c free) ∧ ∀ k, Legal c k → (exec 4096 c k).isSome := by
  have h₀ : Run 4096 [] unused := .start ⟨rfl, rfl, rfl⟩
  have h₁ : Run 4096 ([] ++ [.alloc oneByte]) _ := h₀.call trivial rfl
  have h₂ : Run 4096 (([] ++ [.alloc oneByte]) ++ [.alloc oneByte]) _ := h₁.call trivial rfl
  have h₃ : Run 4096 ((([] ++ [.alloc oneByte]) ++ [.alloc oneByte]) ++ [.dealloc 4112 1]) _ :=
    h₂.call (by unfold Legal; decide) rfl
  have h₄ : Run 4096 ([.alloc oneByte, .alloc oneByte, .dealloc 4112 1] ++ [.dealloc 4144 1]) _ :=
    h₃.call (by unfold Legal; decide) rfl
  exact ⟨_, h₄, by decide, compositor_heap_invariant (by decide) h₄ (by simp)⟩

/-- Before the first call the heap is not set up: no byte is free, and none is allocated. -/
theorem unused_heap_empty : Run 4096 [] unused ∧ FreeList unused.state [] ∧
    ¬ ∃ free, HeapInvariant 4096 unused free := by
  refine ⟨.start ⟨rfl, rfl, rfl⟩, ⟨rfl, by simp⟩, ?_⟩
  rintro ⟨free, h⟩
  have hone := h.whole rfl
  subst hone
  have hhead : (0 : Nat) = 4096 := h.freeList.list.1
  cases hhead

end Folkering.Compositor
