/-
  Building display lists, and reading them back.

  A builder call appends one record.  The lengths are written into 16-bit fields: the payload length of the record, and
  for a text its length within the payload.  `parse_display_list` walks the records up to the first `Sync`.
    * `nextCommand_record`  — a record whose payload length fits is read back, with anything behind it;
    * `nextCommand_long`    — a text whose record does not fit is never read back;
    * `parseFrom_iff`       — by induction on the calls, which lists are read back as a whole.
-/
import Folkering.Gfx.DisplayList
import Folkering.Lib.LittleEndian

namespace Folkering.Gfx

open LittleEndian List

/-- The calls of the builder. -/
inductive BuilderCall where
  | drawRect (cmd : DrawRectCmd)
  | setClipRect (cmd : SetClipRectCmd)
  | drawTexture (cmd : DrawTextureCmd)
  | drawText (x y : Int32) (colorRgba : UInt32) (fontSize : UInt16) (text : List UInt8)
  | endFrame
deriving Repr, DecidableEq

/-- `write_header`. -/
def headerBytes (opcode : UInt8) (payloadLen : UInt16) : List UInt8 := opcode :: leBytes 2 payloadLen.toNat

/-- A 16-bit field. -/
def u16Bytes (v : UInt16) : List UInt8 := leBytes 2 v.toNat

/-- A 32-bit field. -/
def u32Bytes (v : UInt32) : List UInt8 := leBytes 4 v.toNat

/-- A signed 32-bit field. -/
def i32Bytes (v : Int32) : List UInt8 := u32Bytes v.toUInt32

/-! ## The packed structs -/

/-- The payload of a rectangle. -/
def DrawRectCmd.bytes (c : DrawRectCmd) : List UInt8 :=
  i32Bytes c.x ++ (i32Bytes c.y ++ (u32Bytes c.width ++ (u32Bytes c.height ++ (u32Bytes c.colorRgba ++
    u16Bytes c.cornerRadius))))

/-- The payload of a clip rectangle. -/
def SetClipRectCmd.bytes (c : SetClipRectCmd) : List UInt8 :=
  i32Bytes c.x ++ (i32Bytes c.y ++ (u32Bytes c.width ++ u32Bytes c.height))

/-- The payload of a texture. -/
def DrawTextureCmd.bytes (c : DrawTextureCmd) : List UInt8 :=
  u32Bytes c.textureId ++ (i32Bytes c.destX ++ (i32Bytes c.destY ++ (u32Bytes c.destWidth ++ (u32Bytes c.destHeight ++
    (u32Bytes c.srcX ++ (u32Bytes c.srcY ++ [c.opacity]))))))

/-- `DrawTextHeader`, with the length of the text cast to 16 bits. -/
def drawTextHeader (x y : Int32) (colorRgba : UInt32) (fontSize : UInt16) (textLen : Nat) : List UInt8 :=
  i32Bytes x ++ (i32Bytes y ++ (u32Bytes colorRgba ++ (u16Bytes fontSize ++ u16Bytes (.ofNat textLen))))

namespace BuilderCall

/-- What a call appends. -/
def record : BuilderCall → List UInt8
  | .drawRect cmd => headerBytes 0x02 22 ++ cmd.bytes
  | .setClipRect cmd => headerBytes 0x01 16 ++ cmd.bytes
  | .drawTexture cmd => headerBytes 0x04 29 ++ cmd.bytes
  | .drawText x y colorRgba fontSize text =>
    headerBytes 0x03 (.ofNat (16 + text.length)) ++ (drawTextHeader x y colorRgba fontSize text.length ++ text)
  | .endFrame => headerBytes 0x00 0

/-- The command a call stands for. -/
def command : BuilderCall → Command
  | .drawRect cmd => .drawRect cmd
  | .setClipRect cmd => .setClipRect cmd
  | .drawTexture cmd => .drawTexture cmd
  | .drawText x y colorRgba fontSize text => .drawText x y colorRgba fontSize text
  | .endFrame => .sync

/-- The length of the payload fits in its field. -/
def Fits : BuilderCall → Prop
  | .drawText _ _ _ _ text => text.length ≤ 65519
  | _ => True

end BuilderCall

/-- The bytes of a `DisplayListBuilder` after some calls. -/
def build (calls : List BuilderCall) : List UInt8 := calls.flatMap BuilderCall.record

/-- The loop of `parse_display_list`: the commands, and the position after them. -/
def parseFrom (bytes : List UInt8) : (fuel pos : Nat) → Except ParseError (List Command × Nat)
  | 0, pos => .ok ([], pos)
  | fuel + 1, pos =>
    match nextCommand bytes pos with
    | .error e => .error e
    | .ok none => .ok ([], pos)
    | .ok (some (cmd, next)) =>
      if cmd = .sync then .ok ([cmd], next)
      else (parseFrom bytes fuel next).map fun r => (cmd :: r.1, r.2)

/-- A record is at least three bytes long, so there are enough rounds. -/
def parseDisplayList (bytes : List UInt8) : Except ParseError (List Command × Nat) := parseFrom bytes bytes.length 0

/-! ## Fields -/

theorem leNat_eq (bs : List UInt8) : leNat bs = fromLe bs := by
  induction bs with
  | nil => rfl
  | cons b bs ih => rw [leNat, fromLe, ih]

theorem leNat_u16Bytes (v : UInt16) : UInt16.ofNat (leNat (u16Bytes v)) = v := by
  rw [leNat_eq, u16Bytes, fromLe_leBytes v.toNat_lt, UInt16.ofNat_toNat]

theorem leNat_u32Bytes (v : UInt32) : UInt32.ofNat (leNat (u32Bytes v)) = v := by
  rw [leNat_eq, u32Bytes, fromLe_leBytes v.toNat_lt, UInt32.ofNat_toNat]

theorem leNat_i32Bytes (v : Int32) : (UInt32.ofNat (leNat (i32Bytes v))).toInt32 = v := by
  rw [i32Bytes, leNat_u32Bytes, Int32.toInt32_toUInt32]

/-! ## Records -/

theorem decode_drawRect (here : Nat) (c : DrawRectCmd) : decodeCommand here 0x02 c.bytes = .ok (.drawRect c) := by
  show Except.ok (Command.drawRect ⟨(UInt32.ofNat (leNat (i32Bytes c.x))).toInt32,
    (UInt32.ofNat (leNat (i32Bytes c.y))).toInt32, .ofNat (leNat (u32Bytes c.width)), .ofNat (leNat (u32Bytes c.height)),
    .ofNat (leNat (u32Bytes c.colorRgba)), .ofNat (leNat (u16Bytes c.cornerRadius))⟩) = _
  simp only [leNat_i32Bytes, leNat_u32Bytes, leNat_u16Bytes]

theorem decode_setClipRect (here : Nat) (c : SetClipRectCmd) :
    decodeCommand here 0x01 c.bytes = .ok (.setClipRect c) := by
  show Except.ok (Command.setClipRect ⟨(UInt32.ofNat (leNat (i32Bytes c.x))).toInt32,
    (UInt32.ofNat (leNat (i32Bytes c.y))).toInt32, .ofNat (leNat (u32Bytes c.width)),
    .ofNat (leNat (u32Bytes c.height))⟩) = _
  simp only [leNat_i32Bytes, leNat_u32Bytes]

theorem decode_drawTexture (here : Nat) (c : DrawTextureCmd) :
    decodeCommand here 0x04 c.bytes = .ok (.drawTexture c) := by
  show Except.ok (Command.drawTexture ⟨.ofNat (leNat (u32Bytes c.textureId)),
    (UInt32.ofNat (leNat (i32Bytes c.destX))).toInt32, (UInt32.ofNat (leNat (i32Bytes c.destY))).toInt32,
    .ofNat (leNat (u32Bytes c.destWidth)), .ofNat (leNat (u32Bytes c.destHeight)), .ofNat (leNat (u32Bytes c.srcX)),
    .ofNat (leNat (u32Bytes c.srcY)), c.opacity⟩) = _
  simp only [leNat_i32Bytes, leNat_u32Bytes]

theorem decodeCommand_text (here : Nat) (payload : List UInt8) :
    decodeCommand here 0x03 payload = decodeDrawText here payload := rfl

/-- Behind the header of a text: its length as it was written, and as many bytes. -/
theorem decodeDrawText_header (here : Nat) (x y : Int32) (colorRgba : UInt32) (fontSize : UInt16) (textLen : Nat)
    (rest : List UInt8) : decodeDrawText here (drawTextHeader x y colorRgba fontSize textLen ++ rest) =
      if rest.length < (UInt16.ofNat textLen).toNat then .error (.badDrawTextHeader here)
      else .ok (.drawText x y colorRgba fontSize (rest.take (UInt16.ofNat textLen).toNat)) := by
  have hlen : u16At (drawTextHeader x y colorRgba fontSize textLen ++ rest) 14 = .ofNat textLen :=
    leNat_u16Bytes (.ofNat textLen)
  have hsize : (drawTextHeader x y colorRgba fontSize textLen ++ rest).length = 16 + rest.length := by
    rw [length_append]
    rfl
  have hx : i32At (drawTextHeader x y colorRgba fontSize textLen ++ rest) 0 = x := leNat_i32Bytes x
  have hy : i32At (drawTextHeader x y colorRgba fontSize textLen ++ rest) 4 = y := leNat_i32Bytes y
  have hcolor : u32At (drawTextHeader x y colorRgba fontSize textLen ++ rest) 8 = colorRgba := leNat_u32Bytes colorRgba
  have hfont : u16At (drawTextHeader x y colorRgba fontSize textLen ++ rest) 12 = fontSize := leNat_u16Bytes fontSize
  have hrest : (drawTextHeader x y colorRgba fontSize textLen ++ rest).drop drawTextPrefixSize = rest := drop_left' rfl
  unfold decodeDrawText
  rw [hsize, if_neg (by unfold drawTextPrefixSize; omega), hlen, hx, hy, hcolor, hfont, hrest]
  simp only [drawTextPrefixSize, Nat.add_lt_add_iff_left]

/-- A header with a payload and more behind it. -/
theorem nextCommand_header (opcode : UInt8) (payloadLen : UInt16) {rest : List UInt8} (hle : payloadLen.toNat ≤ rest.length) :
    nextCommand (headerBytes opcode payloadLen ++ rest) 0 =
      (decodeCommand 0 opcode (rest.take payloadLen.toNat)).map fun cmd => some (cmd, 3 + payloadLen.toNat) := by
  have hlen : (headerBytes opcode payloadLen ++ rest).length = 3 + rest.length := by
    rw [length_append]
    rfl
  have hfield : ((headerBytes opcode payloadLen ++ rest).getD (0 + 1) 0).toNat +
      256 * ((headerBytes opcode payloadLen ++ rest).getD (0 + 2) 0).toNat = payloadLen.toNat :=
    @fromLe_leBytes 2 payloadLen.toNat payloadLen.toNat_lt
  have hrest : (headerBytes opcode payloadLen ++ rest).drop (0 + 3) = rest := rfl
  have hop : (headerBytes opcode payloadLen ++ rest).getD 0 0 = opcode := rfl
  unfold nextCommand
  simp only [hlen, hfield, hrest, hop]
  rw [if_neg (by omega), if_neg (by omega), if_neg (by omega), Nat.zero_add]
  cases decodeCommand 0 opcode (rest.take payloadLen.toNat) <;> rfl

theorem nextCommand_fixed {opcode : UInt8} {n : UInt16} {bytes : List UInt8} {cmd : Command}
    (hn : bytes.length = n.toNat) (hdecode : decodeCommand 0 opcode bytes = .ok cmd) :
    nextCommand (headerBytes opcode n ++ bytes) 0 = .ok (some (cmd, 3 + n.toNat)) := by
  rw [nextCommand_header _ _ hn.ge, take_of_length_le hn.le, hdecode]
  rfl

/-- A record that fits is read back. -/
theorem nextCommand_record {c : BuilderCall} (h : c.Fits) :
    nextCommand c.record 0 = .ok (some (c.command, c.record.length)) := by
  cases c with
  | drawRect cmd => exact nextCommand_fixed rfl (decode_drawRect 0 cmd)
  | setClipRect cmd => exact nextCommand_fixed rfl (decode_setClipRect 0 cmd)
  | drawTexture cmd => exact nextCommand_fixed rfl (decode_drawTexture 0 cmd)
  | drawText x y colorRgba fontSize text =>
    have hfit : text.length ≤ 65519 := h
    have hlen : (UInt16.ofNat (16 + text.length)).toNat = 16 + text.length :=
      UInt16.toNat_ofNat_of_lt (show 16 + text.length < 65536 by omega)
    have htext : (UInt16.ofNat text.length).toNat = text.length :=
      UInt16.toNat_ofNat_of_lt (show text.length < 65536 by omega)
    have hsize : (drawTextHeader x y colorRgba fontSize text.length ++ text).length = 16 + text.length := by
      rw [length_append]
      rfl
    have hdecode : decodeCommand 0 0x03 (drawTextHeader x y colorRgba fontSize text.length ++ text) =
        .ok (.drawText x y colorRgba fontSize text) := by
      rw [decodeCommand_text, decodeDrawText_header, htext, if_neg (Nat.lt_irrefl _), take_length]
    have hrecord : (BuilderCall.drawText x y colorRgba fontSize text).record.length = 3 + (16 + text.length) := by
      rw [BuilderCall.record, length_append, hsize]
      rfl
    have htake : (drawTextHeader x y colorRgba fontSize text.length ++ text).take (16 + text.length) =
        drawTextHeader x y colorRgba fontSize text.length ++ text := take_of_length_le (by rw [hsize])
    rw [hrecord, BuilderCall.record, nextCommand_header _ _ (by rw [hlen, hsize]), hlen, htake, hdecode]
    rfl
  | endFrame =>
    rfl

/-- A text whose record does not fit is not read back, whatever follows. -/
theorem nextCommand_long {x y : Int32} {colorRgba : UInt32} {fontSize : UInt16} {text : List UInt8}
    (h : 65519 < text.length) (rest : List UInt8) (next : Nat) :
    nextCommand ((BuilderCall.drawText x y colorRgba fontSize text).record ++ rest) 0 ≠
      .ok (some (.drawText x y colorRgba fontSize text, next)) := by
  have hle : (UInt16.ofNat (16 + text.length)).toNat ≤
      (drawTextHeader x y colorRgba fontSize text.length ++ text ++ rest).length := by
    have hmod : (UInt16.ofNat (16 + text.length)).toNat ≤ 16 + text.length := Nat.mod_le _ _
    rw [length_append, length_append]
    exact Nat.le_trans hmod (Nat.le_add_right _ _)
  rw [BuilderCall.record, append_assoc, nextCommand_header _ _ hle]
  intro heq
  have hdecode : decodeDrawText 0
      ((drawTextHeader x y colorRgba fontSize text.length ++ text ++ rest).take (UInt16.ofNat (16 + text.length)).toNat) =
      .ok (.drawText x y colorRgba fontSize text) := by
    generalize hd : decodeCommand 0 0x03 _ = d at heq
    cases d with
    | error e => cases heq
    | ok cmd =>
      have hcmd : cmd = .drawText x y colorRgba fontSize text := (Prod.mk.inj (Option.some.inj (Except.ok.inj heq))).1
      rw [← hcmd]
      exact hd
  have hwrap : (UInt16.ofNat (16 + text.length)).toNat = (16 + text.length) % 65536 := rfl
  rcases Nat.lt_or_ge (UInt16.ofNat (16 + text.length)).toNat 16 with hshort | hlong
  · -- the payload ends before the header of the text does
    rw [decodeDrawText, if_pos (by rw [length_take]; unfold drawTextPrefixSize; omega)] at hdecode
    cases hdecode
  · have hheader : (drawTextHeader x y colorRgba fontSize text.length).length = 16 := rfl
    rw [append_assoc, take_append, take_of_length_le (by rw [hheader]; omega),
      decodeDrawText_header] at hdecode
    split at hdecode
    · cases hdecode
    · -- the bytes read are fewer than those of the text
      have htext := congrArg List.length (Command.drawText.inj (Except.ok.inj hdecode)).2.2.2.2
      rw [length_take] at htext
      have hlt : (UInt16.ofNat text.length).toNat < 65536 := UInt16.toNat_lt _
      omega

/-! ## Whole lists -/

/-- A record behind other bytes is read as it is alone. -/
theorem nextCommand_behind {before bytes : List UInt8} {cmd : Command} {next : Nat}
    (h : nextCommand (before ++ bytes) before.length = .ok (some (cmd, next))) :
    ∃ next', nextCommand bytes 0 = .ok (some (cmd, next')) := by
  obtain ⟨len, hlen, hle, -, hdecode⟩ := nextCommand_ok_iff.mp h
  have hget : ∀ i, (before ++ bytes).getD (before.length + i) 0 = bytes.getD (0 + i) 0 := by
    intro i
    rw [getD_eq_getElem?_getD, getElem?_append_right (by omega), Nat.add_sub_cancel_left, Nat.zero_add,
      getD_eq_getElem?_getD]
  have hop := hget 0
  have hdrop : (before ++ bytes).drop (before.length + 3) = bytes.drop (0 + 3) := by
    rw [← drop_drop, drop_left, Nat.zero_add]
  rw [length_append] at hle
  rw [hget, hget] at hlen
  rw [Nat.add_zero] at hop
  rw [hop, hdrop] at hdecode
  exact ⟨_, nextCommand_ok_iff.mpr ⟨len, hlen, by omega, rfl, decodeCommand_here 0 hdecode⟩⟩

/-- No call follows an `end_frame`. -/
def SyncLast : List BuilderCall → Prop
  | [] => True
  | c :: calls => (c = .endFrame → calls = []) ∧ SyncLast calls

theorem record_pos (c : BuilderCall) : 3 ≤ c.record.length := by
  cases c <;> simp [BuilderCall.record, headerBytes]

theorem command_sync {c : BuilderCall} : c.command = .sync ↔ c = .endFrame := by
  cases c <;> simp [BuilderCall.command]

/-- Which lists are read back, behind whatever was built before. -/
theorem parseFrom_iff : ∀ (calls : List BuilderCall) (before : List UInt8) (fuel : Nat), (build calls).length ≤ fuel →
    (parseFrom (before ++ build calls) fuel before.length =
        .ok (calls.map BuilderCall.command, (before ++ build calls).length) ↔
      (∀ c ∈ calls, c.Fits) ∧ SyncLast calls)
  | [], before, fuel, _ => by
    refine iff_of_true ?_ ⟨by simp, trivial⟩
    cases fuel with
    | zero => simp [parseFrom, build]
    | succ fuel => simp [parseFrom, build, nextCommand]
  | c :: calls, before, fuel, hfuel => by
    have hbuild : build (c :: calls) = c.record ++ build calls := rfl
    have hpos := record_pos c
    rw [hbuild, length_append] at hfuel
    obtain ⟨fuel, rfl⟩ : ∃ n, fuel = n + 1 := ⟨fuel - 1, by omega⟩
    by_cases hfit : c.Fits
    · have hnext := @nextCommand_append c.record 0 _ _ before (build calls) (nextCommand_record hfit)
      have ih := parseFrom_iff calls (before ++ c.record) fuel (by omega)
      rw [Nat.add_zero, append_assoc] at hnext
      rw [append_assoc, length_append] at ih
      rw [hbuild, parseFrom, hnext]
      simp only [command_sync, map_cons, forall_mem_cons, hfit, true_and, SyncLast]
      by_cases hsync : c = .endFrame
      · -- the walk ends here
        rw [if_pos hsync]
        constructor
        · intro h
          obtain ⟨hcmds, -⟩ := Prod.mk.inj (Except.ok.inj h)
          have hnil : calls = [] := map_eq_nil_iff.mp (List.cons.inj hcmds).2.symm
          subst hnil
          exact ⟨by simp, fun _ => rfl, trivial⟩
        · rintro ⟨-, hlast, -⟩
          cases hlast hsync
          simp [build]
      · rw [if_neg hsync]
        simp only [hsync, false_implies, true_and]
        rw [← ih]
        cases parseFrom (before ++ (c.record ++ build calls)) fuel (before.length + c.record.length) with
        | error e => exact iff_of_false (fun h => by cases h) fun h => by cases h
        | ok r =>
          obtain ⟨cmds, pos⟩ := r
          simp [Except.map]
    · -- a text that is too long
      cases c with
      | drawText x y colorRgba fontSize text =>
        refine iff_of_false (fun h => ?_) fun h => hfit (h.1 _ mem_cons_self)
        rw [hbuild, parseFrom] at h
        cases hnext : nextCommand (before ++ ((BuilderCall.drawText x y colorRgba fontSize text).record ++ build calls))
            before.length with
        | error e =>
          rw [hnext] at h
          cases h
        | ok r =>
          rw [hnext] at h
          cases r with
          | none => cases h
          | some r =>
            obtain ⟨cmd, next⟩ := r
            have hcmd : cmd = .drawText x y colorRgba fontSize text := by
              simp only at h
              split at h
              · exact (List.cons.inj (Prod.mk.inj (Except.ok.inj h)).1).1
              · cases hrest : parseFrom (before ++ ((BuilderCall.drawText x y colorRgba fontSize text).record ++ build calls))
                    fuel next with
                | error e =>
                  rw [hrest] at h
                  cases h
                | ok r =>
                  rw [hrest] at h
                  exact (List.cons.inj (Prod.mk.inj (Except.ok.inj h)).1).1
            rw [hcmd] at hnext
            obtain ⟨next', hread⟩ := nextCommand_behind hnext
            exact nextCommand_long (Nat.lt_of_not_le hfit) _ _ hread
      | drawRect cmd => exact absurd trivial hfit
      | setClipRect cmd => exact absurd trivial hfit
      | drawTexture cmd => exact absurd trivial hfit
      | endFrame => exact absurd trivial hfit

theorem parseDisplayList_iff (calls : List BuilderCall) :
    parseDisplayList (build calls) = .ok (calls.map BuilderCall.command, (build calls).length) ↔
      (∀ c ∈ calls, c.Fits) ∧ SyncLast calls := by
  have h := parseFrom_iff calls [] _ (Nat.le_refl _)
  rwa [nil_append, length_nil] at h

/-- ROUND TRIP: what the calls built is read back, to the last byte, iff no text is longer than 65519 bytes and no call
    follows an `end_frame`. -/
theorem displayList_round_trip_iff (calls : List BuilderCall) :
    parseDisplayList (build calls) = .ok (calls.map BuilderCall.command, (build calls).length) ↔
      (∀ x y colorRgba fontSize text, BuilderCall.drawText x y colorRgba fontSize text ∈ calls → text.length ≤ 65519) ∧
      SyncLast calls := by
  rw [parseDisplayList_iff]
  refine and_congr_left' ⟨fun h x y colorRgba fontSize text hc => h _ hc, fun h c hc => ?_⟩
  cases c with
  | drawText x y colorRgba fontSize text => exact h x y colorRgba fontSize text hc
  | drawRect cmd => trivial
  | setClipRect cmd => trivial
  | drawTexture cmd => trivial
  | endFrame => trivial

/-- A text of 65520 letters, in a frame of its own. -/
theorem long_text_lost : parseDisplayList (build [.drawText 0 0 0 16 (List.replicate 65520 97), .endFrame]) ≠
    .ok ([.drawText 0 0 0 16 (List.replicate 65520 97), .sync],
      (build [.drawText 0 0 0 16 (List.replicate 65520 97), .endFrame]).length) := by
  intro h
  have hfit := ((parseDisplayList_iff _).mp h).1 _ mem_cons_self
  rw [BuilderCall.Fits, length_replicate] at hfit
  exact absurd hfit (by decide)

end Folkering.Gfx
