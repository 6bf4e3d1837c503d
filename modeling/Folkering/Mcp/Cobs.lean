/-
  COBS: byte strings without zero bytes.

  The input is cut into runs of non-zero bytes.  A run is written behind its CODE, its length plus one; the zero behind a
  run is left out, and the code 0xFF says that there was none, the run being as long as runs get.
    * `cobs`               — the encoding as a list, with the run that is being collected;
    * `cobsEncode_eq`      — the encoder, which goes back to fill in each code, writes that list;
    * `cobsDecode_cobs`    — the decoder reads it back.
-/
import Mathlib.Data.List.Basic

namespace Folkering.Mcp

open List

/-! ## The code -/

/-- The encoder's variables: `code_idx` is the place kept free for the code of the current run. -/
structure Encoder where
  out : List UInt8
  writeIdx : Nat
  codeIdx : Nat
  code : UInt8

/-- One round of the loop. -/
def Encoder.byte (e : Encoder) (b : UInt8) : Option Encoder :=
  if e.writeIdx ≥ e.out.length then none
  else if b = 0 then
    some { out := e.out.set e.codeIdx e.code, code := 1, codeIdx := e.writeIdx, writeIdx := e.writeIdx + 1 }
  else
    let e := { e with out := e.out.set e.writeIdx b, writeIdx := e.writeIdx + 1, code := e.code + 1 }
    if e.code = 0xFF then
      some { out := e.out.set e.codeIdx e.code, code := 1, codeIdx := e.writeIdx, writeIdx := e.writeIdx + 1 }
    else some e

/-- The loop over the input. -/
def Encoder.bytes (e : Encoder) : List UInt8 → Option Encoder
  | [] => some e
  | b :: input => (e.byte b).bind fun e => e.bytes input

/-- The lines after the loop. -/
def Encoder.finish (e : Encoder) : Option (Nat × List UInt8) :=
  if e.writeIdx ≥ e.out.length then none else some (e.writeIdx, e.out.set e.codeIdx e.code)

/-- `cobs_encode`: how many bytes were written, and the buffer. -/
def cobsEncode (input out : List UInt8) : Option (Nat × List UInt8) :=
  if input.isEmpty then some (0, out)
  else (Encoder.bytes { out, writeIdx := 1, codeIdx := 0, code := 1 } input).bind Encoder.finish

/-- Copy `n` bytes to the output, of which `cap` bytes fit; what is left of the input, and the output. -/
def copyRun (cap : Nat) : Nat → List UInt8 → List UInt8 → Option (List UInt8 × List UInt8)
  | 0, input, out => some (input, out)
  | n + 1, input, out => match input with
    | [] => none
    | b :: input => if out.length ≥ cap then none else copyRun cap n input (out ++ [b])

/-- The loop of `cobs_decode`; each round takes at least a code from the input. -/
def decodeRuns (cap : Nat) : Nat → List UInt8 → List UInt8 → Option (List UInt8)
  | 0, _, out => some out
  | fuel + 1, input, out => match input with
    | [] => some out
    | code :: input =>
      if code = 0 then none
      else (copyRun cap (code.toNat - 1) input out).bind fun r =>
        if code < 0xFF ∧ r.1 ≠ [] then
          if r.2.length ≥ cap then none else decodeRuns cap fuel r.1 (r.2 ++ [0])
        else decodeRuns cap fuel r.1 r.2

/-- `cobs_decode` into a buffer of `cap` bytes: the bytes written. -/
def cobsDecode (input : List UInt8) (cap : Nat) : Option (List UInt8) := decodeRuns cap input.length input []

/-! ## The encoding -/

/-- The encoding, with the bytes of the current run. -/
def cobs (run : List UInt8) : List UInt8 → List UInt8
  | [] => UInt8.ofNat (run.length + 1) :: run
  | b :: input =>
    if b = 0 then UInt8.ofNat (run.length + 1) :: run ++ cobs [] input
    else if run.length + 1 = 254 then 0xFF :: (run ++ [b]) ++ cobs [] input
    else cobs (run ++ [b]) input

/-- The bytes of a run: none is zero, and the run may still grow. -/
structure Run (run : List UInt8) : Prop where
  short : run.length < 254
  nonzero : ∀ b ∈ run, b ≠ 0

/-- A run starts without bytes. -/
theorem run_nil : Run [] := ⟨by decide, by simp⟩

/-- A run takes another byte while it is not full. -/
theorem Run.snoc {run : List UInt8} (h : Run run) {b : UInt8} (hb : b ≠ 0) (hlen : run.length + 1 ≠ 254) :
    Run (run ++ [b]) := by
  refine ⟨?_, fun c hc => ?_⟩
  · have := h.short
    rw [length_append, length_singleton]
    omega
  · rcases mem_append.mp hc with hc | hc
    · exact h.nonzero c hc
    · rwa [mem_singleton.mp hc]

/-- The code of a run is its length plus one, in one byte. -/
theorem Run.code {run : List UInt8} (h : Run run) : (UInt8.ofNat (run.length + 1)).toNat = run.length + 1 := by
  have := h.short
  exact UInt8.toNat_ofNat_of_lt (show run.length + 1 < 256 by omega)

theorem Run.code_ne_zero {run : List UInt8} (h : Run run) : UInt8.ofNat (run.length + 1) ≠ 0 := by
  intro h0
  have := congrArg UInt8.toNat h0
  rw [h.code] at this
  cases this

theorem cobs_ne_nil : ∀ {run input : List UInt8}, cobs run input ≠ []
  | run, [] => by simp [cobs]
  | run, b :: input => by
    rw [cobs]
    split_ifs
    · simp
    · simp
    · exact cobs_ne_nil

/-- No byte of the encoding is zero. -/
theorem cobs_nonzero : ∀ {run input : List UInt8}, Run run → ∀ c ∈ cobs run input, c ≠ 0
  | run, [], h, c, hc => by
    rcases mem_cons.mp hc with rfl | hc
    · exact h.code_ne_zero
    · exact h.nonzero c hc
  | run, b :: input, h, c, hc => by
    rw [cobs] at hc
    split_ifs at hc with hb hfull
    · rcases mem_append.mp hc with hc | hc
      · rcases mem_cons.mp hc with rfl | hc
        · exact h.code_ne_zero
        · exact h.nonzero c hc
      · exact cobs_nonzero run_nil c hc
    · rcases mem_append.mp hc with hc | hc
      · rcases mem_cons.mp hc with rfl | hc
        · decide
        · rcases mem_append.mp hc with hc | hc
          · exact h.nonzero c hc
          · rwa [mem_singleton.mp hc]
      · exact cobs_nonzero run_nil c hc
    · exact cobs_nonzero (h.snoc hb hfull) c hc

/-! ## The encoder -/

/-- What the buffer holds: the codes and runs so far, and behind the place kept free the current run. -/
structure Encoder.Holds (e : Encoder) (done run : List UInt8) : Prop where
  before : e.out.take e.codeIdx = done
  codeIdx : e.codeIdx = done.length
  behind : (e.out.drop (e.codeIdx + 1)).take run.length = run
  writeIdx : e.writeIdx = done.length + 1 + run.length
  code : e.code = UInt8.ofNat (run.length + 1)

/-- The code is filled in. -/
theorem take_set_code {out done run : List UInt8} (hdone : out.take done.length = done)
    (hrun : (out.drop (done.length + 1)).take run.length = run) (hlt : done.length < out.length) (code : UInt8) :
    (out.set done.length code).take (done.length + 1 + run.length) = done ++ code :: run := by
  rw [take_add, take_succ_eq_append_getElem (by simpa using hlt), take_set_of_le (Nat.le_refl _), hdone,
    getElem_set_self, drop_set_of_lt (Nat.lt_succ_self _), hrun, append_assoc]
  rfl

/-- Filling in a code starts the next run. -/
theorem Encoder.Holds.close {e : Encoder} {done run : List UInt8} (h : e.Holds done run)
    (hlt : e.codeIdx < e.out.length) (code : UInt8) :
    Encoder.Holds { out := e.out.set e.codeIdx code, code := 1, codeIdx := e.writeIdx, writeIdx := e.writeIdx + 1 }
      (done ++ code :: run) [] := by
  have hdone := h.before
  have hrun := h.behind
  rw [h.codeIdx] at hdone hrun hlt
  refine ⟨?_, ?_, rfl, ?_, rfl⟩
  · show (e.out.set e.codeIdx code).take e.writeIdx = _
    rw [h.codeIdx, h.writeIdx]
    exact take_set_code hdone hrun hlt code
  · show e.writeIdx = _
    rw [h.writeIdx, length_append, length_cons]
    omega
  · show e.writeIdx + 1 = _
    rw [h.writeIdx, length_append, length_cons, length_nil]
    omega

/-- A byte that is not zero joins the run. -/
theorem Encoder.Holds.push {e : Encoder} {done run : List UInt8} (h : e.Holds done run) (hlt : e.writeIdx < e.out.length)
    (b : UInt8) :
    Encoder.Holds { e with out := e.out.set e.writeIdx b, writeIdx := e.writeIdx + 1, code := e.code + 1 } done
      (run ++ [b]) := by
  have hw := h.writeIdx
  have hc := h.codeIdx
  refine ⟨?_, hc, ?_, ?_, ?_⟩
  · show (e.out.set e.writeIdx b).take e.codeIdx = done
    rw [take_set_of_le (by omega), h.before]
  · show ((e.out.set e.writeIdx b).drop (e.codeIdx + 1)).take (run ++ [b]).length = run ++ [b]
    have hplace : e.writeIdx = e.codeIdx + 1 + run.length := by omega
    rw [length_append, length_singleton, drop_set, if_neg (by omega), hplace,
      Nat.add_sub_cancel_left,
      take_succ_eq_append_getElem (by rw [length_set, length_drop]; omega),
      take_set_of_le (Nat.le_refl _), h.behind, getElem_set_self]
  · show e.writeIdx + 1 = done.length + 1 + (run ++ [b]).length
    rw [length_append, length_singleton, hw]
    omega
  · show e.code + 1 = UInt8.ofNat ((run ++ [b]).length + 1)
    rw [h.code, length_append, length_singleton]
    simp [UInt8.ofNat_add]

/-- What is written, when it fits with a byte to spare. -/
def Writes (encoding out : List UInt8) (r : Option (Nat × List UInt8)) : Prop :=
  if encoding.length < out.length then
    ∃ out', r = some (encoding.length, out') ∧ out'.length = out.length ∧ out'.take encoding.length = encoding
  else r = none

theorem length_le_cobs (run input : List UInt8) : run.length < (cobs run input).length := by
  induction input generalizing run with
  | nil => simp [cobs]
  | cons b input ih =>
    rw [cobs]
    split_ifs
    · simp only [length_cons, length_append]
      omega
    · simp only [length_cons, length_append]
      omega
    · refine Nat.lt_trans ?_ (ih (run ++ [b]))
      simp

/-- From what the buffer holds the loop writes the rest of the encoding; one case per branch of a round. -/
theorem Encoder.Holds.bytes : ∀ {e : Encoder} {done run : List UInt8}, e.Holds done run → Run run → ∀ input : List UInt8,
    Writes (done ++ cobs run input) e.out ((e.bytes input).bind Encoder.finish)
  | e, done, run, h, hr, [] => by
    have hlen : (done ++ cobs run []).length = e.writeIdx := by
      rw [h.writeIdx, cobs, length_append, length_cons]
      omega
    unfold Writes
    rw [hlen, Encoder.bytes, Option.bind_some, Encoder.finish]
    by_cases hfit : e.writeIdx < e.out.length
    · rw [if_pos hfit, if_neg (by omega)]
      refine ⟨_, rfl, length_set, ?_⟩
      have hdone := h.before
      have hrun := h.behind
      have hw := h.writeIdx
      rw [h.codeIdx] at hdone hrun
      rw [h.codeIdx, h.writeIdx, h.code]
      exact take_set_code hdone hrun (by omega) _
    · rw [if_neg hfit, if_pos (by omega)]
  | e, done, run, h, hr, b :: input => by
    have hw := h.writeIdx
    have hc := h.codeIdx
    rw [Encoder.bytes, Encoder.byte]
    by_cases hroom : e.writeIdx ≥ e.out.length
    · -- the encoding is longer than what is written so far
      have hlong : ¬ (done ++ cobs run (b :: input)).length < e.out.length := by
        have := length_le_cobs run (b :: input)
        rw [length_append]
        omega
      rw [if_pos hroom, Writes, if_neg hlong]
      rfl
    · rw [if_neg hroom]
      by_cases hb : b = 0
      · have hnext := (h.close (by omega) e.code).bytes run_nil input
        rw [if_pos hb, cobs, if_pos hb, ← h.code]
        simpa [Writes] using hnext
      · have hpush := h.push (by omega) b
        rw [if_neg hb, cobs, if_neg hb]
        by_cases hfull : run.length + 1 = 254
        · have hcode : e.code + 1 = 0xFF := by
            rw [h.code, hfull]
            rfl
          have hnext := (hpush.close (by simp; omega) 0xFF).bytes run_nil input
          rw [if_pos hfull]
          simp only [hcode, if_true]
          simpa [Writes] using hnext
        · have hcode : e.code + 1 ≠ 0xFF := by
            intro heq
            have hn := congrArg UInt8.toNat (hpush.code.symm.trans heq)
            rw [(hr.snoc hb hfull).code, length_append, length_singleton] at hn
            exact hfull (Nat.succ.inj hn)
          have hnext := hpush.bytes (hr.snoc hb hfull) input
          rw [if_neg hfull]
          simp only [hcode, if_false]
          simpa [Writes] using hnext

/-- The encoder writes the encoding, if it fits with a byte to spare, and refuses otherwise. -/
theorem cobsEncode_eq {input : List UInt8} (hne : input ≠ []) (out : List UInt8) :
    Writes (cobs [] input) out (cobsEncode input out) := by
  have hstart : Encoder.Holds { out, writeIdx := 1, codeIdx := 0, code := 1 } [] [] := ⟨rfl, rfl, rfl, rfl, rfl⟩
  have h := hstart.bytes run_nil input
  have hempty : input.isEmpty = false := by simpa using hne
  rw [cobsEncode, hempty]
  exact h

/-! ## The decoder -/

/-- A run that fits is copied. -/
theorem copyRun_append {cap : Nat} : ∀ {run rest out : List UInt8}, out.length + run.length ≤ cap →
    copyRun cap run.length (run ++ rest) out = some (rest, out ++ run)
  | [], rest, out, _ => by simp [copyRun]
  | b :: run, rest, out, h => by
    rw [length_cons] at h
    rw [cons_append, length_cons, copyRun, if_neg (by omega), copyRun_append (by simp; omega)]
    simp

/-- A round of the decoder over a run and its code. -/
theorem decodeRuns_run {cap fuel : Nat} {run rest out : List UInt8} {code : UInt8} (hcode : code.toNat = run.length + 1)
    (hroom : out.length + run.length ≤ cap) : decodeRuns cap (fuel + 1) (code :: (run ++ rest)) out =
      if code < 0xFF ∧ rest ≠ [] then
        if (out ++ run).length ≥ cap then none else decodeRuns cap fuel rest (out ++ run ++ [0])
      else decodeRuns cap fuel rest (out ++ run) := by
  have hne : code ≠ 0 := by
    rintro rfl
    cases hcode
  rw [decodeRuns, if_neg hne, hcode, Nat.add_sub_cancel, copyRun_append hroom]
  rfl

/-- The decoder follows the encoding run by run. -/
theorem decodeRuns_cobs {cap : Nat} : ∀ {input run out : List UInt8} {fuel : Nat}, Run run →
    out.length + run.length + input.length ≤ cap → (cobs run input).length ≤ fuel →
      decodeRuns cap fuel (cobs run input) out = some (out ++ run ++ input)
  | [], run, out, 0, hr, hcap, hfuel => by simp [cobs] at hfuel
  | [], run, out, fuel + 1, hr, hcap, hfuel => by
    have h := @decodeRuns_run cap fuel run [] out _ hr.code (by omega)
    rw [append_nil] at h
    rw [cobs, h, if_neg (by simp)]
    cases fuel with
    | zero => simp [decodeRuns]
    | succ fuel => simp [decodeRuns]
  | b :: input, run, out, fuel, hr, hcap, hfuel => by
    rw [length_cons] at hcap
    rw [cobs] at hfuel ⊢
    split_ifs at hfuel ⊢ with hb hfull
    · -- the run ends with a zero
      obtain ⟨fuel, rfl⟩ : ∃ n, fuel = n + 1 := ⟨fuel - 1, by simp at hfuel; omega⟩
      have hlt : UInt8.ofNat (run.length + 1) < 0xFF := by
        have := hr.short
        rw [UInt8.lt_iff_toNat_lt, hr.code]
        show run.length + 1 < 255
        omega
      rw [cons_append, decodeRuns_run hr.code (by omega), if_pos ⟨hlt, cobs_ne_nil⟩,
        if_neg (by rw [length_append]; omega), decodeRuns_cobs run_nil (by simp; omega) (by simp at hfuel; omega), hb]
      simp
    · -- the run is as long as runs get
      obtain ⟨fuel, rfl⟩ : ∃ n, fuel = n + 1 := ⟨fuel - 1, by simp at hfuel; omega⟩
      have hcode : (0xFF : UInt8).toNat = (run ++ [b]).length + 1 := by
        rw [length_append, length_singleton, hfull]
        rfl
      rw [cons_append, decodeRuns_run hcode (by simp; omega), if_neg (by simp),
        decodeRuns_cobs run_nil (by simp; omega) (by simp at hfuel ⊢; omega)]
      simp
    · rw [decodeRuns_cobs (hr.snoc hb hfull) (by simp; omega) hfuel]
      simp

/-- The encoding decodes to the input, in every buffer that can hold it. -/
theorem cobsDecode_cobs {input : List UInt8} {cap : Nat} (hcap : input.length ≤ cap) :
    cobsDecode (cobs [] input) cap = some input := by
  have h := @decodeRuns_cobs cap input [] [] _ run_nil (by simpa using hcap) (Nat.le_refl _)
  rwa [nil_append, nil_append] at h

end Folkering.Mcp
