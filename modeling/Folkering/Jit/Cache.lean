/-
  The disk cache of compiled modules (tools/a64-encoder/src/jit_cache.rs): its record format FJC1.

  A record is magic, version, entry point, a counted list of function offsets and a counted block of code, all numbers
  little-endian words.  The counts are stored as `len as u32`: a list of `2^32` entries is stored with count 0.
  `fjc1_faithful_iff`: exactly the records whose two counts fit are read back, and of those no proper beginning is.
-/
import Mathlib.Algebra.Order.Group.Nat
import Folkering.Lib.Wire

namespace Folkering.Jit.Cache

open Wire List

/-- A compiled module: the code, where each function starts in it, and where to enter. -/
structure ModuleLayout where
  code : List UInt8
  functionOffsets : List UInt32
  entrypointOffset : UInt32
deriving DecidableEq

/-- The errors of a decode; `outOfRange` stands for the panic of an index outside the buffer. -/
inductive CacheError where
  | badMagic
  | badVersion (v : UInt32)
  | truncated
  | outOfRange
deriving DecidableEq

/-- The bytes `FJC1`. -/
def fjcMagic : UInt32 := 0x31434A46

/-! ## Words -/

/-- `u32::to_le_bytes`. -/
def toLeBytes (v : UInt32) : List UInt8 :=
  [.ofNat v.toNat, .ofNat (v.toNat / 2 ^ 8), .ofNat (v.toNat / 2 ^ 16), .ofNat (v.toNat / 2 ^ 24)]

/-- `u32::from_le_bytes`. -/
def fromLeBytes (b₀ b₁ b₂ b₃ : UInt8) : UInt32 :=
  .ofNat (b₀.toNat + 2 ^ 8 * b₁.toNat + 2 ^ 16 * b₂.toNat + 2 ^ 24 * b₃.toNat)

theorem fromLeBytes_toLeBytes (v : UInt32) :
    fromLeBytes (.ofNat v.toNat) (.ofNat (v.toNat / 2 ^ 8)) (.ofNat (v.toNat / 2 ^ 16)) (.ofNat (v.toNat / 2 ^ 24)) = v := by
  have hlt := v.toNat_lt
  apply UInt32.toNat_inj.mp
  simp only [fromLeBytes, UInt32.toNat_ofNat', UInt8.toNat_ofNat']
  omega

/-- The next word of the buffer. -/
def readU32 (buf : List UInt8) : Step Nat CacheError UInt32 := fun p =>
  if buf.length < p + 4 then .error .truncated
  else match buf[p]?, buf[p + 1]?, buf[p + 2]?, buf[p + 3]? with
    | some b₀, some b₁, some b₂, some b₃ => .ok (fromLeBytes b₀ b₁ b₂ b₃, p + 4)
    | _, _, _, _ => .error .outOfRange

theorem reads_readU32 (v : UInt32) : Reads .truncated readU32 v (toLeBytes v) := by
  constructor
  · intro pre post
    have hlen : ¬ (pre ++ (toLeBytes v ++ post)).length < pre.length + 4 := by
      simp only [length_append, toLeBytes, length_cons, length_nil]
      omega
    have hat : ∀ i, (pre ++ (toLeBytes v ++ post))[pre.length + i]? = (toLeBytes v ++ post)[i]? := fun i => by
      rw [getElem?_append_right (Nat.le_add_right _ _), Nat.add_sub_cancel_left]
    have h0 := hat 0
    rw [Nat.add_zero] at h0
    rw [readU32, if_neg hlen, h0, hat 1, hat 2, hat 3]
    simp only [toLeBytes, cons_append, nil_append, getElem?_cons_zero, getElem?_cons_succ,
      fromLeBytes_toLeBytes, length_cons, length_nil]
  · intro pre k hk
    rw [readU32, if_pos]
    simp only [toLeBytes, length_cons, length_nil] at hk
    simp only [length_append, length_take, toLeBytes, length_cons, length_nil]
    omega

/-! ## Records -/

/-- The layout as it is stored. -/
def encodeFjc1 (layout : ModuleLayout) : List UInt8 :=
  toLeBytes fjcMagic ++ (toLeBytes 1 ++ (toLeBytes layout.entrypointOffset ++
    (toLeBytes (.ofNat layout.functionOffsets.length) ++ (layout.functionOffsets.flatMap toLeBytes ++
      (toLeBytes (.ofNat layout.code.length) ++ layout.code)))))

/-- The walk over the buffer. -/
def readLayout (buf : List UInt8) : Step Nat CacheError ModuleLayout := do
  let magic ← readU32 buf
  if magic ≠ fjcMagic then throw .badMagic
  else
    let ver ← readU32 buf
    if ver ≠ 1 then throw (.badVersion ver)
    else
      let entrypointOffset ← readU32 buf
      let nFuncs ← readU32 buf
      let functionOffsets ← many readU32 buf nFuncs.toNat
      let codeLen ← readU32 buf
      let code ← bytes .truncated codeLen.toNat buf
      pure { code, functionOffsets, entrypointOffset }

/-- The layout a stored buffer holds. -/
def decodeFjc1 (buf : List UInt8) : Except CacheError ModuleLayout := (readLayout buf 0).map (·.1)

/-- The record is read back, and every proper beginning of it is rejected, by an error of the decoder. -/
structure Faithful (layout : ModuleLayout) : Prop where
  roundTrip : decodeFjc1 (encodeFjc1 layout) = .ok layout
  beginnings : ∀ k < (encodeFjc1 layout).length, ∃ e, e ≠ .outOfRange ∧
    decodeFjc1 ((encodeFjc1 layout).take k) = .error e

/-- The walk, field by field. -/
theorem reads_readLayout {layout : ModuleLayout} (hf : layout.functionOffsets.length < 2 ^ 32)
    (hc : layout.code.length < 2 ^ 32) : Reads .truncated readLayout layout (encodeFjc1 layout) := by
  have hcode : Reads CacheError.truncated (bytes .truncated layout.code.length) layout.code layout.code :=
    Reads.bytes layout.code
  have hoffs : Reads CacheError.truncated (fun buf => many readU32 buf layout.functionOffsets.length)
      layout.functionOffsets (layout.functionOffsets.flatMap toLeBytes) := Reads.many fun v _ => reads_readU32 v
  -- the counts read back are the counts written
  rw [← UInt32.toNat_ofNat_of_lt' hc] at hcode
  rw [← UInt32.toNat_ofNat_of_lt' hf] at hoffs
  refine Reads.bind (reads_readU32 fjcMagic) (Reads.guarded (not_not.mpr rfl) ?_)
  refine Reads.bind (reads_readU32 1) (Reads.guarded (not_not.mpr rfl) ?_)
  refine Reads.bind (reads_readU32 layout.entrypointOffset) ?_
  refine Reads.bind (reads_readU32 (.ofNat layout.functionOffsets.length)) ?_
  refine Reads.bind hoffs ?_
  refine Reads.bind (reads_readU32 (.ofNat layout.code.length)) ?_
  exact hcode.map fun code => { layout with code := code }

/-- What any buffer decodes to has counts that fit: they were read from words. -/
theorem decodeFjc1_counts {buf : List UInt8} {layout : ModuleLayout} (h : decodeFjc1 buf = .ok layout) :
    layout.functionOffsets.length < 2 ^ 32 ∧ layout.code.length < 2 ^ 32 := by
  obtain ⟨⟨l, q⟩, hread, rfl⟩ : ∃ r, readLayout buf 0 = .ok r ∧ r.1 = layout := by
    unfold decodeFjc1 at h
    cases hr : readLayout buf 0 with
    | error e => rw [hr] at h; cases h
    | ok r => rw [hr] at h; cases h; exact ⟨r, rfl, rfl⟩
  obtain ⟨magic, p₁, -, h⟩ := Step.bind_ok.mp hread
  split at h
  · cases h
  obtain ⟨ver, p₂, -, h⟩ := Step.bind_ok.mp h
  split at h
  · cases h
  obtain ⟨entry, p₃, -, h⟩ := Step.bind_ok.mp h
  obtain ⟨nFuncs, p₄, -, h⟩ := Step.bind_ok.mp h
  obtain ⟨offs, p₅, hoffs, h⟩ := Step.bind_ok.mp h
  obtain ⟨codeLen, p₆, -, h⟩ := Step.bind_ok.mp h
  obtain ⟨code, p₇, hcode, h⟩ := Step.bind_ok.mp h
  cases h
  exact ⟨many_length hoffs ▸ nFuncs.toNat_lt, bytes_length hcode ▸ codeLen.toNat_lt⟩

/-- **The codec is faithful exactly on the records whose two counts fit a word.** -/
theorem fjc1_faithful_iff (layout : ModuleLayout) :
    Faithful layout ↔ layout.functionOffsets.length < 2 ^ 32 ∧ layout.code.length < 2 ^ 32 := by
  constructor
  · intro h
    exact decodeFjc1_counts h.roundTrip
  · rintro ⟨hf, hc⟩
    obtain ⟨hfull, hcut⟩ := (reads_readLayout hf hc).whole
    refine ⟨?_, fun k hk => ⟨.truncated, CacheError.noConfusion, ?_⟩⟩
    · rw [decodeFjc1, hfull]
      rfl
    · rw [decodeFjc1, hcut k hk]
      rfl

/-- `2^32` bytes of code are stored with the count 0: the record read back has no code. -/
theorem fjc1_code_lost :
    decodeFjc1 (encodeFjc1 ⟨List.replicate (2 ^ 32) 0, [0], 0⟩) ≠ .ok ⟨List.replicate (2 ^ 32) 0, [0], 0⟩ := by
  intro h
  have hlt := (decodeFjc1_counts h).2
  rw [length_replicate] at hlt
  exact Nat.lt_irrefl _ hlt

end Folkering.Jit.Cache
