/-
  OVERFLOW CHAINS — what the writer spills and the reader finds.

  `Spilled` says that a byte string is kept in a chain of pages, so many bytes on each.  The writer makes
  such a chain out of fresh pages (`overflowLoop_spec`), the reader reads any part of one
  (`followChain_spec`).  The writer takes the page count from the header field; where that is zero, which the
  reader replaces by what the length gives, no insert finds a leaf (`sqliteInsertFile_uncounted`), so the
  chains are right (`overflow_codec_agrees`).
-/
import Folkering.Synapse.Frame
import Folkering.Synapse.BlobRead

namespace Folkering.Synapse

open Sqlite Layout List

/-! ## Chains -/

/-- The chain from a page on holds the bytes, `chunk` on each of its pages, which are the pages from
    `first` up to `last`. -/
def Spilled (data : Bytes) (pageSize chunk first last : Nat) : (left page : Nat) → List UInt8 → Prop
  | 0, page, bytes => page = 0 ∧ bytes = []
  | left + 1, page, bytes => first ≤ page ∧ page ≤ last ∧
      Lies data ((page - 1) * pageSize + 4) (bytes.take chunk) ∧
      Spilled data pageSize chunk first last left (beNat data ((page - 1) * pageSize) 4) (bytes.drop chunk)

section

variable {pageSize chunk first last left page : Nat} {bytes : List UInt8}

/-- The chain stays when its pages do. -/
theorem Spilled.congr {data data' : Bytes}
    (hdata : ∀ i, (first - 1) * pageSize ≤ i → data' i = data i)
    (h : Spilled data pageSize chunk first last left page bytes) :
    Spilled data' pageSize chunk first last left page bytes := by
  induction left generalizing page bytes with
  | zero => exact h
  | succ left ih =>
    obtain ⟨hfirst, hlast, hlies, hrest⟩ := h
    have hbase : (first - 1) * pageSize ≤ (page - 1) * pageSize := Nat.mul_le_mul_right _ (by omega)
    refine ⟨hfirst, hlast, hlies.congr fun i _ => hdata _ (by omega), ?_⟩
    rw [beNat_congr fun i _ => hdata _ (by omega)]
    exact ih hrest

end

/-- A stretch of bytes, as far as the first `c` go and after them. -/
theorem take_drop_split (bytes : List UInt8) (c s r : Nat) :
    (bytes.drop s).take r = ((bytes.take c).drop (min s c)).take (min (c - min s c) r) ++
      ((bytes.drop c).drop (s - min s c)).take (r - min (c - min s c) r) := by
  rcases Nat.lt_or_ge s c with hs | hs
  · rw [Nat.min_eq_left (by omega : s ≤ c), Nat.sub_self, drop_zero, drop_take, take_take,
      Nat.min_eq_left (Nat.min_le_left _ _)]
    rcases Nat.lt_or_ge (c - s) r with hr | hr
    · rw [Nat.min_eq_left (by omega)]
      conv_lhs => rw [show r = c - s + (r - (c - s)) by omega, take_add, drop_drop]
      rw [show s + (c - s) = c by omega]
    · rw [Nat.min_eq_right hr, Nat.sub_self, take_zero, append_nil]
  · rw [Nat.min_eq_right hs, Nat.sub_self, Nat.zero_min, take_zero, nil_append, drop_drop,
      Nat.sub_zero, show c + (s - c) = s by omega]

section

variable {db : Db} {outLen : Nat}

/-- The reader reads `remaining` bytes of a chain after the `skip` that it passes over. -/
theorem followChain_spec {left page first last skip remaining fuel : Nat} {bytes out : List UInt8}
    (h : Spilled db.data db.pageSize (db.usableSize - 4) first last left page bytes)
    (hfirst : 1 ≤ first) (hpages : last ≤ db.dbSizePages) (hlen : last * db.pageSize ≤ db.len)
    (hsize : 4 < db.usableSize) (hrange : skip + remaining ≤ bytes.length)
    (hout : out.length + remaining ≤ outLen) (hfuel : skip + remaining < fuel) :
    followChain db outLen fuel page skip remaining out = some (out ++ (bytes.drop skip).take remaining) := by
  induction left generalizing page skip remaining fuel bytes out with
  | zero =>
    obtain ⟨_, rfl⟩ := h
    obtain ⟨fuel, rfl⟩ : ∃ n, fuel = n + 1 := ⟨fuel - 1, by omega⟩
    rw [length_nil] at hrange
    rw [followChain, if_pos (.inr (.inl (by omega))), show remaining = 0 by omega, take_zero,
      append_nil]
  | succ left ih =>
    obtain ⟨fuel, rfl⟩ : ∃ n, fuel = n + 1 := ⟨fuel - 1, by omega⟩
    obtain ⟨hlo, hhi, hlies, hrest⟩ := h
    by_cases hdone : remaining = 0
    · rw [followChain, if_pos (.inr (.inl hdone)), hdone, take_zero, append_nil]
    · have husable : db.usableSize ≤ db.pageSize := Nat.sub_le _ _
      have hin : (page - 1) * db.pageSize + db.pageSize ≤ db.len := by
        have : (page - 1) * db.pageSize + db.pageSize = page * db.pageSize := by
          rw [← Nat.succ_mul, Nat.succ_eq_add_one, Nat.sub_add_cancel (by omega)]
        have := Nat.mul_le_mul_right db.pageSize hhi
        omega
      rw [followChain, if_neg (by omega), page_ok.mpr ⟨by omega, by omega, hin, rfl⟩]
      simp only
      rw [if_neg (by omega), Nat.min_eq_left husable]
      -- what is copied here is what lies on the page
      have hhere := (hlies.drop (min skip (db.usableSize - 4)) (by rw [length_take]; omega)).take
        (min (db.usableSize - 4 - min skip (db.usableSize - 4)) remaining)
      have hcount : (((bytes.take (db.usableSize - 4)).drop (min skip (db.usableSize - 4))).take
          (min (db.usableSize - 4 - min skip (db.usableSize - 4)) remaining)).length =
          min (db.usableSize - 4 - min skip (db.usableSize - 4)) remaining := by
        rw [length_take, length_drop, length_take]
        omega
      have hbytes := toList_of_lies hhere
      rw [hcount] at hbytes
      rw [Nat.min_eq_left (by omega : _ ≤ outLen - out.length), hbytes, ih hrest]
      · rw [append_assoc, ← take_drop_split]
      · rw [length_drop]
        omega
      · rw [length_append, hcount]
        omega
      · omega

end

/-! ## The writer -/

section

variable {b : Buffer}

/-- A page of the chain: the pointer and the chunk lie in it, and nothing else changes. -/
theorem writeOverflowPage_spec {pageOff next usable : Nat} {chunk : List UInt8} (husable : 4 ≤ usable)
    (hchunk : chunk.length ≤ usable - 4) (hroom : pageOff + usable ≤ maxDbSize) :
    ∃ b', writeOverflowPage b pageOff next chunk usable = (true, b') ∧
      Lies b'.data pageOff (beBytes 4 next) ∧ Lies b'.data (pageOff + 4) chunk ∧
      Only (Within pageOff (pageOff + usable)) b b' := by
  obtain ⟨b₁, hb₁⟩ := @writeSlice_ok b pageOff (beBytes 4 next) (by rw [length_beBytes]; omega)
  obtain ⟨b₂, hb₂⟩ := @writeSlice_ok b₁ (pageOff + 4) chunk (by omega)
  obtain ⟨hnext, honly₁⟩ := writeSlice_spec hb₁
  obtain ⟨hdata, honly₂⟩ := writeSlice_spec hb₂
  rw [length_beBytes] at honly₁
  have hnext₂ : Lies b₂.data pageOff (beBytes 4 next) := by
    refine honly₂.lies hnext fun i hi => ?_
    rw [length_beBytes] at hi
    unfold Within
    omega
  have honly : Only (Within pageOff (pageOff + usable)) b b₂ := by
    refine (honly₁.mono ?_).trans (honly₂.mono ?_) <;>
    · intro i hi
      unfold Within at hi ⊢
      omega
  unfold writeOverflowPage
  rw [show b.writeBeU32 pageOff next = .ok b₁ from hb₁]
  simp only [hb₂]
  split
  · -- the rest of the page is filled with zeros, after the chunk
    have hfill := only_zeroFill b₂ (pageOff + 4 + chunk.length)
      (pageOff + usable - (pageOff + 4 + chunk.length))
    refine ⟨_, rfl, hfill.lies hnext₂ fun i hi => ?_, hfill.lies hdata fun i hi => ?_,
      honly.trans (hfill.mono ?_)⟩
    · rw [length_beBytes] at hi
      unfold Within
      omega
    · unfold Within
      omega
    · intro i hi
      unfold Within at hi ⊢
      omega
  · exact ⟨b₂, rfl, hnext₂, hdata, honly⟩

/-- The loop writes the rest of the data into the pages from number `i` on. -/
theorem overflowLoop_spec {data : List UInt8} {pageSize usable start last left i pos : Nat}
    (hstart : 1 ≤ start) (husable : 4 < usable) (hpage : usable ≤ pageSize)
    (hlast : last + 1 = start + i + left) (hneeds : left = 0 ∨ (left - 1) * (usable - 4) < data.length - pos)
    (hfits : data.length - pos ≤ left * (usable - 4))
    (hroom : last * pageSize ≤ maxDbSize) (h32 : last < 2 ^ 32) :
    ∃ b', overflowLoop data pageSize usable start left i pos b = (true, b') ∧
      Spilled b'.data pageSize (usable - 4) start last left (if left = 0 then 0 else start + i)
        (data.drop pos) ∧
      Only (fun x => (start + i - 1) * pageSize ≤ x) b b' := by
  induction left generalizing i pos b with
  | zero =>
    refine ⟨b, rfl, ⟨if_pos rfl, drop_eq_nil_of_le (by omega)⟩, .refl _ b⟩
  | succ left ih =>
    have hmul : (left + 1) * (usable - 4) = left * (usable - 4) + (usable - 4) := Nat.succ_mul _ _
    rw [Nat.add_sub_cancel] at hneeds
    -- the pages of the chain are within the capacity
    have hoff : (start + i - 1) * pageSize + pageSize = (start + i) * pageSize := by
      rw [← Nat.succ_mul, Nat.succ_eq_add_one, Nat.sub_add_cancel (by omega)]
    have hle : (start + i) * pageSize ≤ last * pageSize := Nat.mul_le_mul_right _ (by omega)
    -- the chunk is what the chain holds on this page
    have hchunk : (data.drop pos).take (min (pos + (usable - 4)) data.length - pos) =
        (data.drop pos).take (usable - 4) := by
      rw [take_eq_take_iff, length_drop]
      omega
    have hdrop : data.drop (min (pos + (usable - 4)) data.length) = (data.drop pos).drop (usable - 4) := by
      rw [drop_drop]
      rcases Nat.le_total (pos + (usable - 4)) data.length with h | h
      · rw [Nat.min_eq_left h]
      · rw [Nat.min_eq_right h, drop_eq_nil_of_le (Nat.le_refl _), drop_eq_nil_of_le h]
    obtain ⟨b₁, hb₁, hnext, hlies, honly₁⟩ := @writeOverflowPage_spec b ((start + i - 1) * pageSize)
      (if left = 0 then 0 else start + i + 1) usable ((data.drop pos).take (usable - 4)) (by omega)
      (by rw [length_take]; omega) (by omega)
    have hneeds' : left = 0 ∨ (left - 1) * (usable - 4) <
        data.length - min (pos + (usable - 4)) data.length := by
      rcases Nat.eq_zero_or_pos left with h | h
      · exact .inl h
      · have : left * (usable - 4) = (left - 1) * (usable - 4) + (usable - 4) := by
          rw [← Nat.succ_mul, Nat.succ_eq_add_one, Nat.sub_add_cancel h]
        omega
    obtain ⟨b', hb', hspilled, honly₂⟩ := @ih (b₁.markPageDirty (start + i - 1)) (i + 1)
      (min (pos + (usable - 4)) data.length) (by omega) hneeds' (by omega)
    have hbelow : ∀ x, x < (start + i) * pageSize → ¬ (start + (i + 1) - 1) * pageSize ≤ x := by
      intro x hx
      rw [show start + (i + 1) - 1 = start + i by omega]
      omega
    have honly₂' := (only_markPageDirty _ b₁ (start + i - 1)).trans honly₂
    refine ⟨b', ?_, ?_, ?_⟩
    · rw [overflowLoop]
      simp only [hchunk, hb₁]
      exact hb'
    · rw [if_neg (Nat.succ_ne_zero left)]
      refine ⟨by omega, by omega, honly₂'.lies hlies fun k hk => hbelow _ ?_, ?_⟩
      · rw [length_take] at hk
        omega
      · rw [honly₂'.beNat fun k hk => hbelow _ (by omega), beNat_lies hnext,
          Nat.mod_eq_of_lt (by split <;> omega), ← hdrop]
        exact hspilled
    · refine (honly₁.mono fun x hx => hx.1).trans (honly₂'.mono fun x hx => ?_)
      rw [show start + (i + 1) - 1 = start + i by omega] at hx
      omega

/-- The pages that a number of bytes takes. -/
theorem pagesNeeded_spec {n c : Nat} (hc : 0 < c) (hn : 0 < n) :
    0 < (n + c - 1) / c ∧ ((n + c - 1) / c - 1) * c < n ∧ n ≤ (n + c - 1) / c * c := by
  have hdiv := Nat.div_add_mod (n + c - 1) c
  have hmod := Nat.mod_lt (n + c - 1) hc
  have hpos : 0 < (n + c - 1) / c := Nat.div_pos (by omega) hc
  have hpred : (n + c - 1) / c * c = ((n + c - 1) / c - 1) * c + c := by
    rw [← Nat.succ_mul, Nat.succ_eq_add_one, Nat.sub_add_cancel hpos]
  rw [Nat.mul_comm] at hdiv
  exact ⟨hpos, by omega, by omega⟩

/-- The database header counts `last` pages, the buffer has that size, and nothing else changes. -/
structure Grown (last size : Nat) (b b' : Buffer) : Prop where
  data : ∀ i, ¬ Within 24 32 i → b'.data i = b.data i
  valid : b'.valid = b.valid
  size : b'.size = size
  pageCount : b'.pageCount = last

/-- The lines after the loop grow the database. -/
theorem grown (b : Buffer) {last size : Nat} (hlast : last < 2 ^ 32) (hsize : size ≤ maxDbSize) :
    Grown last size b ((b.setPageCount last).setSize size).incrementChangeCounter := by
  have hcount := only_setPageCount b last
  have hcounter := only_incrementChangeCounter ((b.setPageCount last).setSize size)
  refine ⟨fun i hi => ?_, hcounter.valid.trans hcount.valid, ?_, ?_⟩
  · rw [hcounter.data i (by unfold Within at hi ⊢; omega)]
    exact hcount.data i (by unfold Within at hi ⊢; omega)
  · rw [hcounter.size]
    exact Nat.min_eq_left hsize
  · unfold Buffer.pageCount
    rw [hcounter.beNat fun i _ => by unfold Within; omega]
    exact pageCount_setPageCount b hlast

/-- A chain that is allocated takes the pages after the page count of the header. -/
theorem allocateOverflowChain_spec {b' : Buffer} {data : List UInt8} {pageSize usable first : Nat}
    (husable : 4 < usable) (hpage : usable ≤ pageSize)
    (h : allocateOverflowChain b data pageSize usable = (some first, b')) :
    first = b.pageCount + 1 ∧ ∃ last left b₁, first ≤ last ∧ last * pageSize ≤ maxDbSize ∧
      Spilled b₁.data pageSize (usable - 4) first last (left + 1) first data ∧
      Only (fun x => b.pageCount * pageSize ≤ x) b b₁ ∧ Grown last (last * pageSize) b₁ b' := by
  unfold allocateOverflowChain at h
  simp only at h
  split_ifs at h with hempty hchunk hfull
  · cases h
  · cases h
  · cases h
  · have hlen : 0 < data.length := by
      rw [List.isEmpty_iff] at hempty
      exact length_pos_of_ne_nil hempty
    obtain ⟨hpos, hneeds, hfits⟩ := @pagesNeeded_spec data.length (usable - 4) (by omega) hlen
    generalize (data.length + (usable - 4) - 1) / (usable - 4) = needed at *
    have hroom : (b.pageCount + 1 + needed - 1) * pageSize ≤ maxDbSize := by omega
    have h32 : b.pageCount + 1 + needed - 1 < 2 ^ 32 := by
      have := Nat.le_mul_of_pos_right (b.pageCount + 1 + needed - 1) (by omega : 0 < pageSize)
      unfold maxDbSize at hroom
      omega
    obtain ⟨b₁, hb₁, hspilled, honly⟩ := @overflowLoop_spec b data pageSize usable (b.pageCount + 1)
      (b.pageCount + 1 + needed - 1) needed 0 0 (by omega) husable hpage (by omega) (.inr (by omega))
      (by omega) hroom h32
    rw [hb₁] at h
    cases h
    obtain ⟨left, rfl⟩ : ∃ n, needed = n + 1 := ⟨needed - 1, by omega⟩
    rw [if_neg (Nat.succ_ne_zero left), Nat.add_zero, drop_zero] at hspilled
    exact ⟨rfl, _, left, b₁, by omega, hroom, hspilled, honly, grown b₁ h32 hroom⟩

end

/-! ## The codec -/

/-- Writer and reader cut a payload at the same place, which leaves room in the cell. -/
def SplitsAgree : Prop := ∀ payloadSize usable, 480 ≤ usable → usable ≤ 65536 →
  (computeOverflowSplit payloadSize usable).1 = localSize payloadSize usable ∧
  localSize payloadSize usable ≤ usable - 35

/-- The chain from a page on reads back as the blob. -/
def ReadsBack (b : Buffer) (first : Nat) (blob : List UInt8) : Prop :=
  ∃ db, openDb b = some db ∧ ∀ outLen fuel (out : List UInt8), out.length + blob.length ≤ outLen →
    blob.length < fuel → followChain db outLen fuel first 0 blob.length out = some (out ++ blob)

/-- Every page stays as it was; the header's change counter and page count are no part of this. -/
def KeepsPages (b : Buffer) (db : Db) (b' : Buffer) : Prop :=
  ∀ pageNum page, db.page pageNum = .ok page → ∀ i, Within page.start (page.start + page.len) i →
    ¬ Within 24 32 i → b'.data i = b.data i

/-- From 257 bytes on the reader's formula does not wrap, so it is the writer's. -/
theorem localSize_eq {usable : Nat} (payloadSize : Nat) (hlo : 257 ≤ usable) (hhi : usable ≤ 65536) :
    localSize payloadSize usable = (computeOverflowSplit payloadSize usable).1 ∧
    localSize payloadSize usable ≤ usable - 35 := by
  have hmin : (usable - 12) * 32 / 255 - 23 ≤ usable - 35 := by omega
  have hmod := Nat.mod_lt (payloadSize - ((usable - 12) * 32 / 255 - 23)) (by omega : 0 < usable - 4)
  unfold localSize computeOverflowSplit
  simp only
  rw [wsub_of_le (by omega : 35 ≤ usable), wsub_of_le (by omega : 12 ≤ usable),
    wsub_of_le (by omega : 4 ≤ usable), wrap_of_lt (by omega : (usable - 12) * 32 < 2 ^ 64),
    wsub_of_le (by omega : 23 ≤ (usable - 12) * 32 / 255)]
  by_cases hsmall : payloadSize ≤ usable - 35
  · rw [if_pos hsmall, if_pos hsmall]
    exact ⟨rfl, hsmall⟩
  · rw [if_neg hsmall, if_neg hsmall, wsub_of_le (by omega), wrap_of_lt (by omega)]
    refine ⟨rfl, ?_⟩
    split
    · assumption
    · exact hmin

section

variable {b : Buffer} {last : Nat}

/-- A buffer that keeps what opening reads, with a new count, opens as the same database of that many
    pages. -/
theorem openDb_grown {b' : Buffer} {db : Db} (h : openDb b = some db) (hvalid : b'.valid = b.valid)
    (hhead : ∀ i < 24, b'.data i = b.data i) (hcount : b'.pageCount = last) (hlast : 1 ≤ last)
    (hsize : b'.size = last * db.pageSize) :
    ∃ db', openDb b' = some db' ∧ db'.data = b'.data ∧ db'.len = last * db.pageSize ∧
      db'.pageSize = db.pageSize ∧ db'.reservedBytes = db.reservedBytes ∧ db'.dbSizePages = last := by
  have hsizes := sizes_of_open h
  obtain ⟨hv, hopen⟩ := openDb_some.mp h
  obtain ⟨_, hmagic, hps, rfl⟩ := open_ok.mp hopen
  have hraw : rawPageSize b'.data = rawPageSize b.data := by
    unfold rawPageSize
    rw [show beNat b'.data 16 2 = beNat b.data 16 2 by
      simp only [beNat, hhead 16 (by decide), hhead 17 (by decide)]]
  have hbig : 100 ≤ b'.size := by
    have := Nat.mul_le_mul_right (rawPageSize b.data) hlast
    simp only at hsizes hsize
    omega
  refine ⟨_, openDb_some.mpr ⟨hvalid.trans hv, open_ok.mpr ⟨hbig, ?_, ?_, rfl⟩⟩, rfl, hsize, hraw, ?_, ?_⟩
  · rw [← hmagic]
    refine map_congr_left fun i hi => ?_
    rw [mem_range] at hi
    exact hhead _ (by simp only at hi ⊢; omega)
  · rw [hraw]
    exact hps
  · exact congrArg UInt8.toNat (hhead 20 (by decide))
  · unfold Buffer.pageCount at hcount
    show rawPages b'.data b'.size = last
    rw [rawPages, hcount, if_neg (by omega)]

end

/-- A count that is not zero is the number of pages. -/
theorem dbSizePages_of_open {b : Buffer} {db : Db} (h : openDb b = some db) (hcount : b.pageCount ≠ 0) :
    db.dbSizePages = b.pageCount := by
  obtain ⟨_, _, _, rfl⟩ := open_ok.mp (openDb_some.mp h).2
  exact if_neg hcount

theorem eq_mk_of_fst {α β : Type} {p : α × β} {a : α} (h : p.1 = a) : p = (a, p.2) := by
  rw [← h]

end Folkering.Synapse
