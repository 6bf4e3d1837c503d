/-
  What alignment the compositor's heap gives.

  A payload stands 16 bytes behind the start of its block.  Blocks are multiples of 16 long and the first one starts at
  the base of the heap, so a pointer has the remainder of the base modulo 16, and nothing is known beyond that: `alloc`
  rounds the length of a block to the alignment, not its place.
    * alignments up to 16 are honoured if the base honours them;
    * with 32 or more, `base + 16` and `base + 64` are both returned;
    * an alignment of the size of the heap or more leaves the whole heap or nothing.
-/
import Folkering.Compositor.Allocator

namespace Folkering.Compositor

variable {base : Nat} {s s' : State} {layout : Layout} {p : Nat}

/-- A block is as long as the alignment. -/
theorem align_le_totalSize (layout : Layout) : layout.align ≤ layout.totalSize := by
  rw [totalSize_eq]
  have hle : layout.align ≤ 2 ^ max layout.alignLog 4 := Nat.pow_le_pow_right (by decide) (Nat.le_max_left _ _)
  have hpos := Nat.two_pow_pos (max layout.alignLog 4)
  generalize 2 ^ max layout.alignLog 4 = m at *
  have hone : 1 ≤ (headerSize + layout.size + m - 1) / m := (Nat.le_div_iff_mul_le hpos).mpr (by unfold headerSize; omega)
  have := Nat.mul_le_mul_right m hone
  omega

/-- A payload that fits with its header under the alignment. -/
theorem totalSize_of_le {k : Nat} (hk : max layout.alignLog 4 = k) (hsize : headerSize + layout.size ≤ 2 ^ k) :
    layout.totalSize = max (2 ^ k) minBlock := by
  have hone : (headerSize + layout.size + 2 ^ k - 1) / 2 ^ k = 1 := by
    unfold headerSize at *
    exact Nat.div_eq_of_lt_le (by omega) (by omega)
  rw [totalSize_eq, hk, hone, Nat.one_mul]

/-- A pointer comes from a block that is long enough. -/
theorem alloc_block {bs : List Block} (h : Heap base s bs) (hinit : s.initialized = true)
    (halloc : alloc base s layout = some (s', p)) (hp : p ≠ 0) :
    ∃ c ∈ bs, p = c.start + headerSize ∧ layout.totalSize ≤ c.size := by
  obtain ⟨l₁, l₂, hl, hwalk, -, hstop⟩ :=
    @Segments.walk_spec s.next (fun node => decide (s.mem node ≥ layout.totalSize)) _ hops 0 _ h.stored.list
      (frees_length_lt h.filled)
  unfold alloc at halloc
  cases l₂ with
  | nil =>
    simp only [hinit, if_true, hwalk] at halloc
    cases halloc
    exact absurd rfl hp
  | cons q l₂ =>
    obtain ⟨x, c, y, rfl, -, rfl, -, -⟩ := frees_split hl
    have hne : c.start ≠ 0 := h.stored.list.ne_zero c.start (by rw [hl]; simp)
    have hbig := hstop c.start rfl
    rw [decide_eq_true_eq, h.stored.words c (by simp)] at hbig
    have hfound : Segments.walk s.next (fun node => decide (s.mem node ≥ layout.totalSize)) hops 0 s.freeHead =
        some (l₁.getLast?.getD 0, c.start) := hwalk
    simp only [hinit, if_true, hfound, if_neg hne] at halloc
    refine ⟨c, by simp, ?_, hbig⟩
    split at halloc <;> cases halloc <;> rfl

/-- The first block is taken, and the list begins behind it. -/
theorem alloc_head (hinit : s.initialized = true) (h0 : s.freeHead ≠ 0) (hbig : layout.totalSize ≤ s.mem s.freeHead) :
    ∃ s', alloc base s layout = some (s', s.freeHead + headerSize) ∧ s'.initialized = true ∧
      (layout.totalSize + minBlock ≤ s.mem s.freeHead → s'.freeHead = s.freeHead + layout.totalSize ∧
        s'.mem (s.freeHead + layout.totalSize) = s.mem s.freeHead - layout.totalSize) := by
  have hwalk : Segments.walk s.next (fun node => decide (s.mem node ≥ layout.totalSize)) hops 0 s.freeHead =
      some (0, s.freeHead) := by
    unfold hops
    rw [Segments.walk, if_pos (.inr (decide_eq_true hbig))]
  have hmin := (totalSize_spec layout).2.1
  unfold alloc
  simp only [hinit, if_true, hwalk, if_neg h0]
  split
  · refine ⟨_, rfl, hinit, fun _ => ⟨rfl, ?_⟩⟩
    unfold minBlock at hmin
    show (State.set _ s.freeHead layout.totalSize).mem (s.freeHead + layout.totalSize) = _
    rw [set_mem, if_neg (by omega)]
    show (State.set _ (s.freeHead + layout.totalSize + 8) _).mem (s.freeHead + layout.totalSize) = _
    rw [set_mem, if_neg (by omega), set_mem, if_pos rfl]
  · rename_i hsmall
    exact ⟨_, rfl, hinit, fun hlarge => absurd (Nat.le_sub_of_add_le' hlarge) hsmall⟩

theorem Tiles.aligned {hi : Nat} : ∀ {lo : Nat} {bs : List Block}, Tiles lo bs hi → (∀ b ∈ bs, b.Ok) →
    ∀ b ∈ bs, ∃ k, b.start = lo + 16 * k
  | _, [], _, _ => by simp
  | lo, b :: bs, ⟨hb, h⟩, hok => by
    intro c hc
    rcases List.mem_cons.mp hc with rfl | hc
    · exact ⟨0, hb⟩
    · obtain ⟨k, hk⟩ := h.aligned (fun d hd => hok d (List.mem_cons_of_mem _ hd)) c hc
      obtain ⟨m, hm⟩ := (hok b List.mem_cons_self).aligned
      exact ⟨m + k, by omega⟩

/-! ## Which alignments are honoured -/

/-- Whatever was called before, a pointer for this alignment is a multiple of it. -/
def Honours (base alignLog : Nat) : Prop :=
  ∀ calls c (layout : Layout) s p, Run base calls c → layout.alignLog = alignLog →
    alloc base c.state layout = some (s, p) → p ≠ 0 → layout.align ∣ p

/-- A pointer comes from a block of some row that fills the heap. -/
theorem alloc_row (hbase : base ≠ 0) {calls : List Call} {c : Config} (hrun : Run base calls c)
    (halloc : alloc base c.state layout = some (s, p)) (hp : p ≠ 0) :
    ∃ bs, Filled base bs ∧ ∃ b ∈ bs, p = b.start + headerSize ∧ layout.totalSize ≤ b.size := by
  rcases run_setUp hbase hrun with ⟨-, -, hinit, -⟩ | ⟨hinit, bs, hheap, -⟩
  · have hsame : alloc base (init base c.state) layout = some (s, p) := by
      rw [← halloc]
      unfold alloc
      rw [hinit]
      rfl
    exact ⟨_, (init_heap hbase c.state).filled, alloc_block (init_heap hbase c.state) rfl hsame hp⟩
  · exact ⟨bs, hheap.filled, alloc_block hheap hinit halloc hp⟩

theorem honours_small {a : Nat} (hbase : base ≠ 0) (ha : a ≤ 4) (hdvd : 2 ^ a ∣ base) : Honours base a := by
  intro calls c layout s p hrun hlayout halloc hp
  obtain ⟨bs, hfilled, b, hb, rfl, -⟩ := alloc_row hbase hrun halloc hp
  obtain ⟨k, hk⟩ := hfilled.tiles.aligned hfilled.ok b hb
  have h16 : 2 ^ a ∣ 16 := pow_dvd_pow 2 ha
  rw [Layout.align, hlayout, hk, headerSize]
  exact Nat.dvd_add (Nat.dvd_add hdvd (Dvd.dvd.mul_right h16 k)) h16

/-- A block as long as the heap is the heap. -/
theorem honours_whole (hbase : base ≠ 0) {a : Nat} (ha : 25 ≤ a) (hdvd : a = 25 → 2 ^ 25 ∣ base + 16) : Honours base a := by
  intro calls c layout s p hrun hlayout halloc hp
  obtain ⟨bs, hfilled, b, hb, rfl, hsize⟩ := alloc_row hbase hrun halloc hp
  have hbounds := hfilled.tiles.bounds.2 b hb
  have halign := align_le_totalSize layout
  rw [Layout.align, hlayout] at halign ⊢
  have hheap : heapSize = 2 ^ 25 := by decide
  have hpow : 2 ^ 25 ≤ 2 ^ a := Nat.pow_le_pow_right (by decide) ha
  obtain rfl : a = 25 := by
    by_contra hne
    have hlarge : 2 ^ 26 ≤ 2 ^ a := Nat.pow_le_pow_right (by decide) (by omega)
    omega
  have hstart : b.start = base := by omega
  rw [hstart]
  exact hdvd rfl

/-- An allocation of no bytes. -/
def emptyLayout (a : Nat) (ha : a ≤ 25) : Layout :=
  ⟨0, a, by have hpow : 2 ^ a ≤ 2 ^ 25 := Nat.pow_le_pow_right (by decide) ha; omega⟩

theorem emptyLayout_total {a : Nat} (ha : a ≤ 25) : (emptyLayout a ha).totalSize = max (2 ^ max a 4) minBlock := by
  refine totalSize_of_le rfl ?_
  show 2 ^ 4 ≤ 2 ^ max a 4
  exact Nat.pow_le_pow_right (by decide) (Nat.le_max_right a 4)

theorem fresh_start (base : Nat) : Run base [] unused := .start ⟨rfl, rfl, rfl⟩

theorem init_word (base : Nat) (s : State) : (init base s).mem base = heapSize := by
  show ((s.set base heapSize).set (base + 8) 0).mem base = heapSize
  rw [set_mem, if_neg (by omega), set_mem, if_pos rfl]

theorem first_pointer (hbase : base ≠ 0) {a : Nat} (ha : a ≤ 25) :
    ∃ s, alloc base unused.state (emptyLayout a ha) = some (s, base + 16) := by
  have hpow : 2 ^ max a 4 ≤ 2 ^ 25 := Nat.pow_le_pow_right (by decide) (by omega)
  obtain ⟨s, halloc, -⟩ := @alloc_head base (init base unused.state) (emptyLayout a ha) rfl hbase (by
    rw [show (init base unused.state).freeHead = base from rfl, init_word, emptyLayout_total, heapSize, minBlock]
    omega)
  exact ⟨s, halloc⟩

/-- 32 bytes: a block of 48. -/
def oddLayout : Layout := ⟨32, 0, by decide⟩

/-- The pointer behind a block of 48 bytes. -/
theorem second_pointer (hbase : base ≠ 0) {a : Nat} (ha : a ≤ 24) : ∃ calls c s, Run base calls c ∧
    alloc base c.state (emptyLayout a (by omega)) = some (s, base + 64) := by
  have hodd : oddLayout.totalSize = 48 := by decide +kernel
  obtain ⟨s₁, halloc₁, hinit₁, hsplit⟩ := @alloc_head base (init base unused.state) oddLayout rfl hbase (by
    rw [show (init base unused.state).freeHead = base from rfl, init_word, hodd]
    decide)
  rw [show (init base unused.state).freeHead = base from rfl, init_word, hodd] at hsplit
  obtain ⟨hhead, hword⟩ := hsplit (by decide)
  have hexec : exec base unused (.alloc oddLayout) = some ⟨s₁, [(base + 16, 32)]⟩ := by
    have halloc : alloc base unused.state oddLayout = some (s₁, base + 16) := halloc₁
    rw [exec, halloc]
    rfl
  have hpow : 2 ^ max a 4 ≤ 2 ^ 24 := Nat.pow_le_pow_right (by decide) (by omega)
  obtain ⟨s₂, halloc₂, -⟩ := @alloc_head base s₁ (emptyLayout a (by omega)) hinit₁ (by omega) (by
    rw [hhead, hword, emptyLayout_total, heapSize, minBlock]
    omega)
  rw [hhead] at halloc₂
  exact ⟨_, _, s₂, .call (k := .alloc oddLayout) (fresh_start base) trivial hexec, halloc₂⟩

/-- The alignments that are honoured: those up to 16 that the base of the heap has, and those that leave room for one
    block at most. -/
theorem alignment_honoured_iff (hbase : base ≠ 0) (a : Nat) :
    Honours base a ↔ a ≤ 4 ∧ 2 ^ a ∣ base ∨ a = 25 ∧ 2 ^ 25 ∣ base + 16 ∨ 26 ≤ a := by
  constructor
  · intro h
    by_cases hlarge : 26 ≤ a
    · exact .inr (.inr hlarge)
    have ha : a ≤ 25 := by omega
    obtain ⟨s, hfirst⟩ := first_pointer hbase ha
    have hdvd : 2 ^ a ∣ base + 16 := h [] unused _ s _ (fresh_start base) rfl hfirst (by omega)
    by_cases hsmall : a ≤ 4
    · exact .inl ⟨hsmall, (Nat.dvd_add_left (pow_dvd_pow 2 hsmall)).mp hdvd⟩
    by_cases hwhole : a = 25
    · exact .inr (.inl ⟨hwhole, hwhole ▸ hdvd⟩)
    -- two pointers that are 48 bytes apart
    obtain ⟨calls, c, s₂, hrun, hsecond⟩ := second_pointer hbase (show a ≤ 24 by omega)
    have hdvd₂ : 2 ^ a ∣ base + 64 := h calls c _ s₂ _ hrun rfl hsecond (by omega)
    have h48 : 2 ^ a ∣ 48 := (Nat.dvd_add_right hdvd).mp (show 2 ^ a ∣ base + 16 + 48 from hdvd₂)
    have h32 : 2 ^ 5 ∣ 48 := Nat.dvd_trans (pow_dvd_pow 2 (by omega)) h48
    exact absurd h32 (by decide)
  · rintro (⟨ha, hdvd⟩ | ⟨rfl, hdvd⟩ | ha)
    · exact honours_small hbase ha hdvd
    · exact honours_whole hbase le_rfl fun _ => hdvd
    · exact honours_whole hbase (by omega) fun hf => by omega

theorem alignment_honoured_sixteen : Honours 0x400000 4 :=
  (alignment_honoured_iff (by decide) 4).mpr (.inl ⟨by decide, by decide⟩)

/-- A heap at a page boundary, asked for 32-byte alignment. -/
theorem alignment_ignored : ∃ c s p, Run 0x400000 [] c ∧ alloc 0x400000 c.state (emptyLayout 5 (by decide)) = some (s, p) ∧
    p ≠ 0 ∧ ¬ (emptyLayout 5 (by decide)).align ∣ p := by
  obtain ⟨s, halloc⟩ := first_pointer (show 0x400000 ≠ 0 by decide) (show 5 ≤ 25 by decide)
  exact ⟨unused, s, _, fresh_start _, halloc, by decide, by decide⟩

end Folkering.Compositor
