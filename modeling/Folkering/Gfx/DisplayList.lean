/-
  Display lists — the wire format and the walker over it.

  A record is an opcode, a payload length and the payload.  The walker decodes the record at its position
  and moves past it, whatever the opcode; `Walks bytes pos cmds` says that from `pos` on the bytes are
  exactly these commands.  A record is read the same way with more bytes behind it
  (`nextCommand_append`), so lists laid one after the other are walked one after the other
  (`Walks.append`).
-/
import Mathlib

namespace Folkering.Gfx

open List

/-- A clip rectangle. -/
structure SetClipRectCmd where
  x : Int32
  y : Int32
  width : UInt32
  height : UInt32
deriving Repr, DecidableEq

/-- A rectangle to fill. -/
structure DrawRectCmd where
  x : Int32
  y : Int32
  width : UInt32
  height : UInt32
  colorRgba : UInt32
  cornerRadius : UInt16
deriving Repr, DecidableEq

/-- A texture to draw. -/
structure DrawTextureCmd where
  textureId : UInt32
  destX : Int32
  destY : Int32
  destWidth : UInt32
  destHeight : UInt32
  srcX : UInt32
  srcY : UInt32
  opacity : UInt8
deriving Repr, DecidableEq

/-- A decoded command. -/
inductive Command where
  | sync
  | setClipRect (c : SetClipRectCmd)
  | drawRect (r : DrawRectCmd)
  | drawText (x y : Int32) (colorRgba : UInt32) (fontSize : UInt16) (text : List UInt8)
  | drawTexture (t : DrawTextureCmd)
  | unknown (opcode : UInt8) (payloadLen : Nat)
deriving Repr, DecidableEq

/-- Why a record is refused, and where. -/
inductive ParseError where
  | shortHeader (offset : Nat)
  | truncatedPayload (offset claimed available : Nat)
  | badDrawTextHeader (offset : Nat)
  | payloadSizeMismatch (offset : Nat) (opcode : UInt8) (expected got : Nat)
deriving Repr, DecidableEq

/-! ## Fields of a payload -/

/-- The little-endian number of some bytes. -/
def leNat : List UInt8 → Nat
  | [] => 0
  | b :: bs => b.toNat + 256 * leNat bs

/-- A 16-bit field of a payload. -/
def u16At (payload : List UInt8) (offset : Nat) : UInt16 := .ofNat (leNat ((payload.drop offset).take 2))

/-- A 32-bit field of a payload. -/
def u32At (payload : List UInt8) (offset : Nat) : UInt32 := .ofNat (leNat ((payload.drop offset).take 4))

/-- A signed 32-bit field of a payload. -/
def i32At (payload : List UInt8) (offset : Nat) : Int32 := (u32At payload offset).toInt32

/-- The size check of an opcode with a fixed payload. -/
def fixedSize (here : Nat) (opcode : UInt8) (payload : List UInt8) (expected : Nat) (cmd : Command) :
    Except ParseError Command :=
  if payload.length ≠ expected then .error (.payloadSizeMismatch here opcode expected payload.length)
  else .ok cmd

/-- The fixed part of a text record. -/
def drawTextPrefixSize : Nat := 16

/-- The text is what follows the fixed part, as long as its field says. -/
def decodeDrawText (here : Nat) (payload : List UInt8) : Except ParseError Command :=
  if payload.length < drawTextPrefixSize then .error (.badDrawTextHeader here)
  else
    let bytesLen := (u16At payload 14).toNat
    if payload.length < drawTextPrefixSize + bytesLen then .error (.badDrawTextHeader here)
    else .ok (.drawText (i32At payload 0) (i32At payload 4) (u32At payload 8) (u16At payload 12)
      ((payload.drop drawTextPrefixSize).take bytesLen))

/-- One record; unknown opcodes are passed on. -/
def decodeCommand (here : Nat) (opcode : UInt8) (payload : List UInt8) : Except ParseError Command :=
  if opcode = 0x00 then .ok .sync
  else if opcode = 0x01 then
    fixedSize here opcode payload 16
      (.setClipRect ⟨i32At payload 0, i32At payload 4, u32At payload 8, u32At payload 12⟩)
  else if opcode = 0x02 then
    fixedSize here opcode payload 22
      (.drawRect ⟨i32At payload 0, i32At payload 4, u32At payload 8, u32At payload 12,
        u32At payload 16, u16At payload 20⟩)
  else if opcode = 0x03 then decodeDrawText here payload
  else if opcode = 0x04 then
    fixedSize here opcode payload 29
      (.drawTexture ⟨u32At payload 0, i32At payload 4, i32At payload 8, u32At payload 12,
        u32At payload 16, u32At payload 20, u32At payload 24, payload.getD 28 0⟩)
  else .ok (.unknown opcode payload.length)

/-! ## The walker -/

/-- The record at a position: the command and the position after it. -/
def nextCommand (bytes : List UInt8) (pos : Nat) : Except ParseError (Option (Command × Nat)) :=
  if bytes.length ≤ pos then .ok none
  else if bytes.length - pos < 3 then .error (.shortHeader pos)
  else
    let opcode := bytes.getD pos 0
    let payloadLen := (bytes.getD (pos + 1) 0).toNat + 256 * (bytes.getD (pos + 2) 0).toNat
    let payloadOff := pos + 3
    if bytes.length < payloadOff + payloadLen then
      .error (.truncatedPayload pos payloadLen (bytes.length - payloadOff))
    else
      match decodeCommand pos opcode ((bytes.drop payloadOff).take payloadLen) with
      | .error e => .error e
      | .ok cmd => .ok (some (cmd, pos + (3 + payloadLen)))

/-- The commands up to the first `Sync`, with it, and the fault that ended the walk, if one did. -/
def commandsFrom (bytes : List UInt8) : (fuel pos : Nat) → List Command × Option ParseError
  | 0, _ => ([], none)
  | fuel + 1, pos =>
    match nextCommand bytes pos with
    | .error e => ([], some e)
    | .ok none => ([], none)
    | .ok (some (.sync, _)) => ([.sync], none)
    | .ok (some (cmd, next)) =>
      let (cmds, fault) := commandsFrom bytes fuel next
      (cmd :: cmds, fault)

/-- A record is at least three bytes long. -/
def commands (bytes : List UInt8) : List Command × Option ParseError :=
  commandsFrom bytes bytes.length 0

section

variable {bytes as bs : List UInt8} {pos next : Nat} {cmd : Command}

/-- Only the faults mention where the record stands. -/
theorem decodeCommand_here {here : Nat} (there : Nat) {opcode : UInt8} {payload : List UInt8}
    (h : decodeCommand here opcode payload = .ok cmd) : decodeCommand there opcode payload = .ok cmd := by
  have hfixed : ∀ {n : Nat} {c : Command}, fixedSize here opcode payload n c = .ok cmd →
      fixedSize there opcode payload n c = .ok cmd := by
    intro n c h
    unfold fixedSize at h ⊢
    split at h
    · cases h
    · rename_i hsize
      rw [if_neg hsize]
      exact h
  have htext : decodeDrawText here payload = .ok cmd → decodeDrawText there payload = .ok cmd := by
    intro h
    unfold decodeDrawText at h ⊢
    split at h
    · cases h
    rename_i hshort
    rw [if_neg hshort]
    simp only at h ⊢
    split at h
    · cases h
    · rename_i htext
      rw [if_neg htext]
      exact h
  unfold decodeCommand at h ⊢
  split_ifs at h ⊢
  · exact h
  · exact hfixed h
  · exact hfixed h
  · exact htext h
  · exact hfixed h
  · exact h

/-- The record at a position, spelled out. -/
theorem nextCommand_ok_iff : nextCommand bytes pos = .ok (some (cmd, next)) ↔
    ∃ len, len = (bytes.getD (pos + 1) 0).toNat + 256 * (bytes.getD (pos + 2) 0).toNat ∧
      pos + 3 + len ≤ bytes.length ∧ next = pos + (3 + len) ∧
      decodeCommand pos (bytes.getD pos 0) ((bytes.drop (pos + 3)).take len) = .ok cmd := by
  unfold nextCommand
  by_cases hend : bytes.length ≤ pos
  · rw [if_pos hend]
    constructor
    · intro h
      cases h
    · rintro ⟨len, _, hle, _⟩
      omega
  rw [if_neg hend]
  by_cases hshort : bytes.length - pos < 3
  · rw [if_pos hshort]
    constructor
    · intro h
      cases h
    · rintro ⟨len, _, hle, _⟩
      omega
  rw [if_neg hshort]
  simp only
  by_cases htrunc : bytes.length <
      pos + 3 + ((bytes.getD (pos + 1) 0).toNat + 256 * (bytes.getD (pos + 2) 0).toNat)
  · rw [if_pos htrunc]
    constructor
    · intro h
      cases h
    · rintro ⟨len, rfl, hle, _⟩
      omega
  rw [if_neg htrunc]
  constructor
  · intro h
    refine ⟨_, rfl, Nat.le_of_not_lt htrunc, ?_⟩
    split at h
    · cases h
    · rename_i c hdecode
      cases h
      exact ⟨rfl, hdecode⟩
  · rintro ⟨len, rfl, _, rfl, hdecode⟩
    rw [hdecode]

/-- A record is at least three bytes long and within the bytes. -/
theorem nextCommand_bounds (h : nextCommand bytes pos = .ok (some (cmd, next))) :
    pos + 3 ≤ next ∧ next ≤ bytes.length := by
  obtain ⟨len, _, hle, rfl, _⟩ := nextCommand_ok_iff.mp h
  omega

/-- A record is read the same way wherever it stands. -/
theorem nextCommand_append (as : List UInt8) {zs : List UInt8}
    (h : nextCommand bytes pos = .ok (some (cmd, next))) :
    nextCommand (as ++ bytes ++ zs) (as.length + pos) = .ok (some (cmd, as.length + next)) := by
  obtain ⟨len, hlen, hle, rfl, hdecode⟩ := nextCommand_ok_iff.mp h
  have hget : ∀ i < bytes.length, (as ++ bytes ++ zs).getD (as.length + i) 0 = bytes.getD i 0 := by
    intro i hi
    rw [append_assoc]
    simp only [getD_eq_getElem?_getD]
    rw [getElem?_append_right (by omega), getElem?_append_left (by omega),
      Nat.add_sub_cancel_left]
  have hpayload : ((as ++ bytes ++ zs).drop (as.length + pos + 3)).take len =
      (bytes.drop (pos + 3)).take len := by
    rw [append_assoc, Nat.add_assoc, ← drop_drop, drop_left,
      drop_append_of_le_length (by omega), take_append_of_le_length (by
        rw [length_drop]; omega)]
  rw [nextCommand_ok_iff]
  refine ⟨len, ?_, ?_, by omega, ?_⟩
  · rw [Nat.add_assoc, Nat.add_assoc, hget _ (by omega), hget _ (by omega)]
    exact hlen
  · rw [length_append, length_append]
    omega
  · rw [hpayload, hget _ (by omega)]
    exact decodeCommand_here _ hdecode

end

/-! ## Whole lists -/

/-- From the position on, the bytes are these commands. -/
inductive Walks (bytes : List UInt8) : Nat → List Command → Prop
  | done : Walks bytes bytes.length []
  | step {pos next : Nat} {cmd : Command} {cmds : List Command} :
      nextCommand bytes pos = .ok (some (cmd, next)) → Walks bytes next cmds →
      Walks bytes pos (cmd :: cmds)

/-- The commands up to the first `Sync`, with it. -/
def upToSync : List Command → List Command
  | [] => []
  | .sync :: _ => [.sync]
  | cmd :: cmds => cmd :: upToSync cmds

/-- Lists laid one after the other. -/
theorem Walks.append {as bs : List UInt8} {pos : Nat} {cmds cmds' : List Command}
    (ha : Walks as pos cmds) (hb : Walks bs 0 cmds') : Walks (as ++ bs) pos (cmds ++ cmds') := by
  induction ha with
  | done =>
    rw [nil_append]
    clear cmds
    -- behind the first list, the second is walked as it is alone
    have hshift : ∀ {p cs}, Walks bs p cs → Walks (as ++ bs) (as.length + p) cs := by
      intro p cs h
      induction h with
      | done =>
        rw [← length_append]
        exact .done
      | @step p next cmd cs hnext _ ih =>
        have := @nextCommand_append bs p next cmd as [] hnext
        rw [append_nil] at this
        exact .step this ih
    exact hshift hb
  | @step pos next cmd cs hnext _ ih =>
    have := @nextCommand_append as pos next cmd [] bs hnext
    rw [nil_append, length_nil, Nat.zero_add, Nat.zero_add] at this
    exact .step this ih

theorem commandsFrom_walks {bytes : List UInt8} {fuel pos : Nat} {cmds : List Command}
    (h : Walks bytes pos cmds) (hfuel : bytes.length - pos ≤ fuel) :
    commandsFrom bytes fuel pos = (upToSync cmds, none) := by
  induction h generalizing fuel with
  | done =>
    cases fuel with
    | zero => rfl
    | succ fuel => simp [commandsFrom, nextCommand, upToSync]
  | @step pos next cmd cmds hnext _ ih =>
    have hbounds := nextCommand_bounds hnext
    obtain ⟨fuel, rfl⟩ : ∃ f, fuel = f + 1 := ⟨fuel - 1, by omega⟩
    rw [commandsFrom, hnext]
    cases cmd <;> first
      | rfl
      | (simp only [@ih fuel (by omega)]; rfl)

/-- The commands of a whole list, up to the first `Sync`. -/
theorem commands_walks {bytes : List UInt8} {cmds : List Command} (h : Walks bytes 0 cmds) :
    commands bytes = (upToSync cmds, none) := commandsFrom_walks h (by omega)

end Folkering.Gfx
