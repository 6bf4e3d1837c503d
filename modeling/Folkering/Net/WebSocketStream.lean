/-
  WebSocket DELIVERY (net/websocket.rs): from the bytes of the server to the buffers of `ws_poll_recv`.

  Bytes pass four places: the response buffer of the handshake, the socket, the frame buffer and a ring of 8192 cells.
  Each of them can lose some.
    * What the handshake reads behind the response is dropped.
    * A full ring drops the rest of a payload.
    * Only TEXT and BINARY frames are delivered: continuation frames are not.
    * Once the slot is `Closed` a poll returns -1, whatever the ring holds.
  `Inv` is the invariant of a run that meets none of this: what was returned, with what the ring holds, are the payloads
  of the frames that were taken off the stream; frame buffer, socket and what is still to arrive are the rest of it.
  `delivery_lossless` is the result for such runs, and `delivery_lossy` has a run for three of the four losses.

  The socket is smoltcp's, a parameter of which `SocketLaws` says what is used: `recv_slice` takes bytes off the front and
  `may_recv` holds as long as there are bytes left.  The answers to PING and CLOSE go out on the other half of the connection and are left out.
-/
import Folkering.Lib.Circular
import Folkering.Net.WebSocket

namespace Folkering.WebSocket

open Circular List

/-! ## The slot -/

/-- The states of a connection. -/
inductive WsState where
  | free
  | connecting
  | opened
  | closing
  | closed
  | error
deriving Repr, DecidableEq

/-- The size of the receive ring. -/
abbrev recvBufSize : Nat := 8192

/-- A connection and its receive ring. -/
structure WsSlot where
  state : WsState
  recvBuf : Nat → UInt8
  /-- write position -/
  recvHead : Fin recvBufSize
  /-- read position -/
  recvTail : Fin recvBufSize
  frameBuf : List UInt8

/-- The bytes in the ring. -/
def WsSlot.recvAvailable (slot : WsSlot) : Nat :=
  if slot.recvHead ≥ slot.recvTail then slot.recvHead.val - slot.recvTail.val
  else recvBufSize - slot.recvTail.val + slot.recvHead.val

/-- `recv_push`: the rest is dropped when the ring is full. -/
def WsSlot.recvPush (slot : WsSlot) : List UInt8 → WsSlot
  | [] => slot
  | b :: data =>
    if slot.recvHead + 1 = slot.recvTail then slot
    else WsSlot.recvPush
      { slot with recvBuf := Function.update slot.recvBuf slot.recvHead.val b, recvHead := slot.recvHead + 1 } data

/-- `recv_pop` into a buffer of the given size. -/
def WsSlot.recvPop (slot : WsSlot) : Nat → List UInt8 × WsSlot
  | 0 => ([], slot)
  | n + 1 =>
    if slot.recvTail = slot.recvHead then ([], slot)
    else
      let r := WsSlot.recvPop { slot with recvTail := slot.recvTail + 1 } n
      (slot.recvBuf slot.recvTail.val :: r.1, r.2)

/-- What a poll does with a frame. -/
def WsSlot.handle (slot : WsSlot) (frame : DecodedFrame) : WsSlot :=
  if frame.opcode = opcodeText ∨ frame.opcode = opcodeBinary then slot.recvPush frame.payload
  else if frame.opcode = opcodeClose then { slot with state := .closed }
  else slot

/-- The decoding loop; each frame has two bytes at least, so that the length of the buffer is enough fuel. -/
def WsSlot.drainFrames : Nat → WsSlot → Option WsSlot
  | 0, slot => some slot
  | fuel + 1, slot =>
    match tryDecodeFrame slot.frameBuf with
    | .more => some slot
    | .panic => none
    | .frame frame =>
      WsSlot.drainFrames fuel { slot.handle frame with frameBuf := slot.frameBuf.drop frame.headerSize }

/-! ## Polls -/

/-- A slot and its socket. -/
structure Conn where
  slot : WsSlot
  /-- the bytes the socket has received and nobody has read -/
  rx : List UInt8

/-- The socket when a poll gets the network state: `is_active`, and whether the peer may still send. -/
structure SocketState where
  active : Bool
  receiving : Bool
deriving Repr, DecidableEq

/-- smoltcp's TCP socket, with the bytes it has received. -/
structure Socket where
  /-- `recv_slice` into a buffer of some size: what it gives, and what is left -/
  recvSlice : List UInt8 → Nat → List UInt8 × List UInt8
  /-- `may_recv` -/
  mayRecv : SocketState → List UInt8 → Bool

/-- What is used of it. -/
structure SocketLaws (S : Socket) : Prop where
  /-- bytes are taken off the front, and none is lost -/
  recvSlice_append (rx : List UInt8) (n : Nat) : (S.recvSlice rx n).1 ++ (S.recvSlice rx n).2 = rx
  /-- received bytes may be read, whatever the peer does -/
  mayRecv_of_ne {rx : List UInt8} (state : SocketState) (h : rx ≠ []) : S.mayRecv state rx = true

/-- What a poll returns, and what it leaves. -/
structure PollResult where
  value : Int
  data : List UInt8
  conn : Conn

/-- The end of a poll. -/
def Conn.deliver (conn : Conn) (size : Nat) : PollResult :=
  if conn.slot.recvAvailable > 0 then
    let r := conn.slot.recvPop size
    ⟨r.1.length, r.1, { conn with slot := r.2 }⟩
  else ⟨0, [], conn⟩

/-- Decodes what the frame buffer holds. -/
def Conn.decode (conn : Conn) (size : Nat) : Option PollResult :=
  (WsSlot.drainFrames conn.slot.frameBuf.length conn.slot).map fun slot => { conn with slot := slot }.deliver size

section

variable (S : Socket)

/-- One read of the socket. -/
def Conn.read (conn : Conn) : Conn :=
  { slot := { conn.slot with frameBuf := conn.slot.frameBuf ++ (S.recvSlice conn.rx 4096).1 }
    rx := (S.recvSlice conn.rx 4096).2 }

/-- The connection is over: neither `is_active` nor `may_recv`. -/
def Conn.ended (conn : Conn) (socket : SocketState) : Bool := !socket.active && !S.mayRecv socket conn.rx

/-- `ws_poll_recv`; `net` is the socket, if the lock of the network state is free and there is one. -/
def wsPollRecv (conn : Conn) (net : Option SocketState) (size : Nat) : Option PollResult :=
  match conn.slot.state with
  | .error => some ⟨-1, [], conn⟩
  | .closed => some ⟨-1, [], conn⟩
  | .free => some ⟨-1, [], conn⟩
  | _ =>
    match net with
    | none => conn.decode size
    | some socket =>
      if conn.ended S socket then
        let closed := { conn.slot with state := .closed }
        if closed.recvAvailable > 0 then
          let r := closed.recvPop size
          some ⟨r.1.length, r.1, { conn with slot := r.2 }⟩
        else some ⟨-1, [], { conn with slot := closed }⟩
      else (conn.read S).decode size

/-- What happens to a connection. -/
inductive Event where
  /-- bytes of the server reach the socket -/
  | arrive (bytes : List UInt8)
  | poll (net : Option SocketState) (size : Nat)

/-- Bytes come in behind the others. -/
def Conn.arrive (conn : Conn) (bytes : List UInt8) : Conn := { conn with rx := conn.rx ++ bytes }

/-- The bytes that the polls of a run return. -/
def run (conn : Conn) : List Event → Option (List UInt8 × Conn)
  | [] => some ([], conn)
  | .arrive bytes :: events => run (conn.arrive bytes) events
  | .poll net size :: events =>
    match wsPollRecv S conn net size with
    | none => none
    | some result => (run result.conn events).map fun r => (result.data ++ r.1, r.2)

/-! ## The handshake -/

/-- The slot after the upgrade. -/
def Conn.opened (rx : List UInt8) : Conn := ⟨⟨.opened, fun _ => 0, 0, 0, []⟩, rx⟩

/-- There is an empty line. -/
def headersEnd (resp : List UInt8) : Bool :=
  (List.range (resp.length - 3)).any fun i => (resp.drop i).take 4 == [13, 10, 13, 10]

/-- The status is somewhere in the buffer. -/
def switching (resp : List UInt8) : Bool := (List.range (resp.length - 2)).any fun i => (resp.drop i).take 3 == [49, 48, 49]

/-- How far the handshake has come. -/
inductive Handshake where
  | waiting
  | rejected
  /-- the response buffer, which is dropped, and what is left in the socket, now or soon -/
  | upgraded (resp rx : List UInt8)
deriving Repr, DecidableEq

/-- The loop of `ws_connect` that waits for the response, with the bytes that arrive in each round. -/
def handshake (resp rx : List UInt8) : List (List UInt8) → Handshake
  | [] => .waiting
  | chunk :: chunks =>
    let rx := rx ++ chunk
    let taken := S.recvSlice rx (512 - resp.length)
    let resp := resp ++ taken.1
    if headersEnd resp then if switching resp then .upgraded resp (taken.2 ++ chunks.flatten) else .rejected
    else handshake resp taken.2 chunks

/-- Nothing is lost as long as the response is not over. -/
theorem handshake_bytes (hS : SocketLaws S) {chunks : List (List UInt8)} {resp rx resp' rx' : List UInt8}
    (h : handshake S resp rx chunks = .upgraded resp' rx') : resp ++ rx ++ chunks.flatten = resp' ++ rx' := by
  induction chunks generalizing resp rx with
  | nil => cases h
  | cons chunk chunks ih =>
    have hkeep : resp ++ rx ++ (chunk :: chunks).flatten = (resp ++ (S.recvSlice (rx ++ chunk) (512 - resp.length)).1) ++
        (S.recvSlice (rx ++ chunk) (512 - resp.length)).2 ++ chunks.flatten := by
      rw [append_assoc resp (S.recvSlice _ _).1 (S.recvSlice _ _).2, hS.recvSlice_append, flatten_cons]
      simp only [append_assoc]
    rw [hkeep]
    simp only [handshake] at h
    split_ifs at h
    · obtain ⟨rfl, rfl⟩ := Handshake.upgraded.inj h
      rw [append_assoc]
    · exact ih h

end

/-! ## The ring -/

/-- The bytes in the ring, the oldest first. -/
def WsSlot.content (slot : WsSlot) : List UInt8 :=
  between slot.recvBuf recvBufSize recvBufSize slot.recvTail.val slot.recvHead.val

section

variable {slot : WsSlot}

theorem length_content : slot.content.length = lag recvBufSize slot.recvTail.val slot.recvHead.val := length_between

theorem recvAvailable_eq : slot.recvAvailable = slot.content.length := by
  rw [length_content, lag_eq slot.recvHead.isLt slot.recvTail.isLt, WsSlot.recvAvailable]
  simp only [ge_iff_le, Fin.le_def]
  have htail := slot.recvTail.isLt
  split_ifs <;> omega

theorem succ_val (i : Fin recvBufSize) : (i + 1).val = (i.val + 1) % recvBufSize := Fin.val_add i 1

/-- With room for one more the ring is not full. -/
theorem succ_ne_tail (h : slot.content.length + 1 < recvBufSize) : slot.recvHead + 1 ≠ slot.recvTail := by
  have hhead := slot.recvHead.isLt
  have htail := slot.recvTail.isLt
  rw [length_content, lag_eq hhead htail] at h
  intro heq
  have hval := congrArg Fin.val heq
  rw [succ_val, succ_mod hhead] at hval
  split_ifs at h hval <;> omega

theorem recvPush_state (slot : WsSlot) (data : List UInt8) : (slot.recvPush data).state = slot.state := by
  induction data generalizing slot with
  | nil => rfl
  | cons b data ih =>
    rw [WsSlot.recvPush]
    split
    · rfl
    · exact ih _

theorem recvPush_frameBuf (slot : WsSlot) (data buf : List UInt8) :
    { slot with frameBuf := buf }.recvPush data = { slot.recvPush data with frameBuf := buf } := by
  induction data generalizing slot with
  | nil => rfl
  | cons b data ih =>
    rw [WsSlot.recvPush, WsSlot.recvPush]
    simp only
    split
    · rfl
    · rw [← ih]

/-- A payload that fits is appended. -/
theorem recvPush_content {data : List UInt8} (h : slot.content.length + data.length < recvBufSize) :
    (slot.recvPush data).content = slot.content ++ data := by
  induction data generalizing slot with
  | nil => exact (append_nil _).symm
  | cons b data ih =>
    rw [length_cons] at h
    have hroom : lag recvBufSize slot.recvTail.val slot.recvHead.val + 1 < recvBufSize := by
      rw [← length_content]
      omega
    have hpush := between_push_apart slot.recvBuf b (Nat.dvd_refl recvBufSize) slot.recvHead.isLt slot.recvTail.isLt
      (by omega) hroom
    rw [Nat.mod_eq_of_lt slot.recvHead.isLt, ← succ_val] at hpush
    have hcontent : { slot with
        recvBuf := Function.update slot.recvBuf slot.recvHead.val b, recvHead := slot.recvHead + 1 }.content =
        slot.content ++ [b] := hpush
    rw [WsSlot.recvPush, if_neg (succ_ne_tail (by omega)), ih, hcontent, append_assoc]
    · rfl
    · rw [hcontent, length_append, length_singleton]
      omega

theorem content_eq_nil : slot.content = [] ↔ slot.recvTail = slot.recvHead := by
  rw [← length_eq_zero_iff, length_content, lag_eq slot.recvHead.isLt slot.recvTail.isLt, Fin.ext_iff]
  have hhead := slot.recvHead.isLt
  have htail := slot.recvTail.isLt
  split_ifs <;> omega

/-- A pop takes as much as fits in the buffer. -/
theorem recvPop_spec (slot : WsSlot) (n : Nat) :
    (slot.recvPop n).1 = slot.content.take n ∧ (slot.recvPop n).2.content = slot.content.drop n ∧
      (slot.recvPop n).2.state = slot.state ∧ (slot.recvPop n).2.frameBuf = slot.frameBuf := by
  induction n generalizing slot with
  | zero => exact ⟨rfl, rfl, rfl, rfl⟩
  | succ n ih =>
    rw [WsSlot.recvPop]
    split
    · next hempty =>
      have hnil := content_eq_nil.mpr hempty
      rw [hnil]
      exact ⟨rfl, rfl, rfl, rfl⟩
    · next hne =>
      have hpop := between_pop slot.recvBuf recvBufSize slot.recvHead.isLt slot.recvTail.isLt
        (fun h => hne (Fin.ext h))
      rw [Nat.mod_eq_of_lt slot.recvTail.isLt, ← succ_val] at hpop
      have hcontent : slot.content = slot.recvBuf slot.recvTail.val ::
          { slot with recvTail := slot.recvTail + 1 }.content := hpop
      obtain ⟨hdata, hrest, hstate, hbuf⟩ := ih { slot with recvTail := slot.recvTail + 1 }
      rw [hcontent, take_succ_cons, drop_succ_cons]
      exact ⟨congrArg _ hdata, hrest, hstate, hbuf⟩

end

/-- The end of a poll returns what fits of the ring. -/
theorem deliver_spec (conn : Conn) (size : Nat) :
    (conn.deliver size).data = conn.slot.content.take size ∧
      (conn.deliver size).conn = { conn with slot := (conn.slot.recvPop size).2 } ∧
      (conn.deliver size).value ≠ -1 := by
  unfold Conn.deliver
  rw [recvAvailable_eq]
  split
  · refine ⟨(recvPop_spec _ size).1, rfl, ?_⟩
    simp only
    omega
  · next hempty =>
    have hnil : conn.slot.content = [] := length_eq_zero_iff.mp (by omega)
    have hpop : (conn.slot.recvPop size).2 = conn.slot := by
      cases size with
      | zero => rfl
      | succ n => rw [WsSlot.recvPop, if_pos (content_eq_nil.mp hnil)]
    rw [hnil, hpop]
    exact ⟨take_nil.symm, rfl, Int.noConfusion⟩

/-! ## Frames on the stream -/

/-- Frames one behind the other. -/
def frameBytes (fs : List Frame) : List UInt8 := fs.flatMap Frame.bytes

/-- The data of a connection: the payloads of its data frames, continuations included. -/
def payloads (fs : List Frame) : List UInt8 :=
  fs.flatMap fun f => if f.opcode = 0 ∨ f.opcode = opcodeText ∨ f.opcode = opcodeBinary then f.payload else []

/-- What a poll takes of its frames. -/
def delivered (frames : List DecodedFrame) : List UInt8 :=
  frames.flatMap fun f => if f.opcode = opcodeText ∨ f.opcode = opcodeBinary then f.payload else []

/-- The frame as the decoder returns it. -/
def Frame.decoded (f : Frame) : DecodedFrame := ⟨f.opcode, f.payload, f.bytes.length⟩

/-- The complete frames at the front of a buffer, and the rest. -/
def framesIn : Nat → List UInt8 → Option (List DecodedFrame × List UInt8)
  | 0, buf => some ([], buf)
  | fuel + 1, buf =>
    match tryDecodeFrame buf with
    | .more => some ([], buf)
    | .panic => none
    | .frame frame => (framesIn fuel (buf.drop frame.headerSize)).map fun r => (frame :: r.1, r.2)

/-- The buffer ends before the next frame does. -/
def Short (buf : List UInt8) (fs : List Frame) : Prop := ∀ f ∈ fs.head?, buf.length < f.bytes.length

theorem payloads_append (a b : List Frame) : payloads (a ++ b) = payloads a ++ payloads b := flatMap_append

theorem handle_frameBuf (frames : List DecodedFrame) (slot : WsSlot) (buf : List UInt8) :
    frames.foldl WsSlot.handle { slot with frameBuf := buf } =
      { frames.foldl WsSlot.handle slot with frameBuf := buf } := by
  induction frames generalizing slot with
  | nil => rfl
  | cons frame frames ih =>
    rw [foldl_cons, foldl_cons, ← ih]
    congr 1
    unfold WsSlot.handle
    split_ifs
    · exact recvPush_frameBuf slot _ buf
    · rfl
    · rfl

/-- The loop handles the complete frames one after the other. -/
theorem drainFrames_eq (n : Nat) (slot : WsSlot) :
    WsSlot.drainFrames n slot = (framesIn n slot.frameBuf).map fun r =>
      { r.1.foldl WsSlot.handle slot with frameBuf := r.2 } := by
  induction n generalizing slot with
  | zero => rfl
  | succ n ih =>
    rw [WsSlot.drainFrames, framesIn]
    cases tryDecodeFrame slot.frameBuf with
    | more => rfl
    | panic => rfl
    | frame frame =>
      simp only [ih, Option.map_map, Function.comp_def, foldl_cons, handle_frameBuf]

/-- On a stream of frames these are the next ones. -/
theorem framesIn_stream {fs : List Frame} (hsize : ∀ f ∈ fs, f.payload.length < 2 ^ 63) {n : Nat} {buf tail : List UInt8}
    (hn : buf.length ≤ n) (h : buf ++ tail = frameBytes fs) :
    ∃ now later rest, fs = now ++ later ∧ framesIn n buf = some (now.map Frame.decoded, rest) ∧
      rest ++ tail = frameBytes later ∧ Short rest later := by
  induction fs generalizing n buf with
  | nil =>
    obtain ⟨rfl, rfl⟩ := append_eq_nil_iff.mp h
    refine ⟨[], [], [], rfl, ?_, rfl, by simp [Short]⟩
    cases n <;> rfl
  | cons f fs ih =>
    have hbytes : buf ++ tail = f.bytes ++ frameBytes fs := h
    have hcompatible : Compatible buf f.bytes :=
      prefix_or_prefix_of_prefix ⟨tail, rfl⟩ ⟨frameBytes fs, hbytes.symm⟩
    have hdecode := decode_compatible hcompatible (hsize f mem_cons_self)
    by_cases hshort : buf.length < f.bytes.length
    · rw [if_pos hshort] at hdecode
      refine ⟨[], f :: fs, buf, rfl, ?_, h, by simpa [Short] using hshort⟩
      cases n with
      | zero => rfl
      | succ n =>
        rw [framesIn, hdecode]
        rfl
    · rw [if_neg hshort] at hdecode
      obtain ⟨buf', rfl⟩ : f.bytes <+: buf := by
        rcases hcompatible with hp | hp
        · rw [hp.eq_of_length_le (Nat.not_lt.mp hshort)]
        · exact hp
      have htwo := @header_length_ge f
      rw [length_append, length_bytes] at hn
      cases n with
      | zero => omega
      | succ n =>
        rw [append_assoc, append_cancel_left_eq] at hbytes
        obtain ⟨now, later, rest, hfs, hframes, hrest, hlast⟩ :=
          @ih (fun g hg => hsize g (mem_cons_of_mem _ hg)) n buf' (by omega) hbytes
        refine ⟨f :: now, later, rest, by rw [hfs]; rfl, ?_, hrest, hlast⟩
        rw [framesIn, hdecode]
        simp only [drop_left, hframes]
        rfl

/-- Frames whose data fits are all delivered to the ring; a CLOSE among them closes the slot. -/
theorem foldl_handle {frames : List DecodedFrame} {slot : WsSlot}
    (h : slot.content.length + (delivered frames).length < recvBufSize) :
    (frames.foldl WsSlot.handle slot).content = slot.content ++ delivered frames ∧
      ((frames.foldl WsSlot.handle slot).state = slot.state ∨ (frames.foldl WsSlot.handle slot).state = .closed ∧
        ∃ f ∈ frames, f.opcode = opcodeClose) := by
  induction frames generalizing slot with
  | nil => exact ⟨(append_nil _).symm, Or.inl rfl⟩
  | cons f frames ih =>
    have hcons : delivered (f :: frames) =
        (if f.opcode = opcodeText ∨ f.opcode = opcodeBinary then f.payload else []) ++ delivered frames := rfl
    rw [hcons, length_append] at h
    -- what the first frame does
    have hfirst : (slot.handle f).content =
        slot.content ++ (if f.opcode = opcodeText ∨ f.opcode = opcodeBinary then f.payload else []) ∧
        ((slot.handle f).state = slot.state ∨ (slot.handle f).state = .closed ∧ f.opcode = opcodeClose) := by
      unfold WsSlot.handle
      split_ifs at h ⊢ with hdata hclose
      · exact ⟨recvPush_content (by omega), Or.inl (recvPush_state slot _)⟩
      · exact ⟨(append_nil _).symm, Or.inr ⟨rfl, hclose⟩⟩
      · exact ⟨(append_nil _).symm, Or.inl rfl⟩
    obtain ⟨hcontent, hstate⟩ := hfirst
    obtain ⟨hcontent', hstate'⟩ := @ih (slot.handle f) (by
      rw [hcontent, length_append]
      omega)
    rw [foldl_cons, hcontent', hcontent, hcons, append_assoc]
    refine ⟨rfl, ?_⟩
    rcases hstate' with hsame | ⟨hclosed, g, hg, hop⟩
    · rcases hstate with hs | ⟨hs, hop⟩
      · exact Or.inl (hsame.trans hs)
      · exact Or.inr ⟨hsame.trans hs, f, mem_cons_self, hop⟩
    · exact Or.inr ⟨hclosed, g, mem_cons_of_mem _ hg, hop⟩

/-! ## Calm runs -/

/-- The data of the complete frames fits in the ring, and in the buffer of the caller if a CLOSE is among them. -/
def DecodeCalm (conn : Conn) (size : Nat) : Prop :=
  ∀ frames rest, framesIn conn.slot.frameBuf.length conn.slot.frameBuf = some (frames, rest) →
    conn.slot.content.length + (delivered frames).length < recvBufSize ∧
    ((∃ f ∈ frames, f.opcode = opcodeClose) → conn.slot.content.length + (delivered frames).length ≤ size)

section

variable (S : Socket)

/-- A poll that has room; the connection is not over before everything (`left`) has arrived. -/
def PollCalm (conn : Conn) (left : List UInt8) (net : Option SocketState) (size : Nat) : Prop :=
  conn.slot.state = .opened → match net with
    | none => DecodeCalm conn size
    | some socket =>
      if conn.ended S socket then left = [] ∧ conn.slot.content.length ≤ size else DecodeCalm (conn.read S) size

/-- A run on the bytes `left`, in which every poll has room. -/
def Calm (conn : Conn) (left : List UInt8) : List Event → Prop
  | [] => True
  | .arrive bytes :: events => ∃ later, left = bytes ++ later ∧ Calm (conn.arrive bytes) later events
  | .poll net size :: events => PollCalm S conn left net size ∧
      ∀ result, wsPollRecv S conn net size = some result → Calm result.conn left events

end

/-- The bytes that arrive in a run. -/
def arrived : List Event → List UInt8
  | [] => []
  | .arrive bytes :: events => bytes ++ arrived events
  | .poll _ _ :: events => arrived events

/-- A server's frames: no message is fragmented, and nothing is said after a CLOSE. -/
structure Plain (fs : List Frame) : Prop where
  size : ∀ f ∈ fs, f.payload.length < 2 ^ 63
  whole : ∀ f ∈ fs, f.opcode = 0 → f.payload = []
  last : ∀ before f after, fs = before ++ f :: after → f.opcode = opcodeClose → payloads after = []

/-- What holds between two polls, when the frames `done` were taken off the stream and `rest` are to come. -/
structure Inv (done rest : List Frame) (conn : Conn) (out left : List UInt8) : Prop where
  stream : conn.slot.frameBuf ++ conn.rx ++ left = frameBytes rest
  short : Short conn.slot.frameBuf rest
  data : out ++ conn.slot.content = payloads done
  state : conn.slot.state = .opened ∨ conn.slot.state = .closed ∧ conn.slot.content = [] ∧ payloads rest = []

section

variable {fs done rest : List Frame} {conn : Conn} {out left : List UInt8} {size : Nat}

theorem delivered_decoded (hwhole : ∀ f ∈ fs, f.opcode = 0 → f.payload = []) :
    delivered (fs.map Frame.decoded) = payloads fs := by
  unfold delivered payloads
  rw [flatMap_map]
  refine flatMap_congr fun f hf => ?_
  show (if f.opcode = opcodeText ∨ f.opcode = opcodeBinary then f.payload else []) = _
  by_cases hzero : f.opcode = 0
  · rw [if_pos (Or.inl hzero), hwhole f hf hzero, ite_self]
  · simp only [hzero, false_or]

theorem Inv.opened (rx left : List UInt8) (h : rx ++ left = frameBytes fs) : Inv [] fs (Conn.opened rx) [] left := by
  refine ⟨h, ?_, (nil_append _).trans (content_eq_nil.mpr rfl), Or.inl rfl⟩
  intro f _
  rw [length_bytes]
  have htwo := @header_length_ge f
  simp only [Conn.opened, length_nil]
  omega

theorem Inv.arrive {bytes : List UInt8} (h : Inv done rest conn out (bytes ++ left)) :
    Inv done rest (conn.arrive bytes) out left :=
  ⟨by rw [← h.stream]; simp [Conn.arrive], h.short, h.data, h.state⟩

/-- Nothing is left of a stream that has arrived and was read. -/
theorem Short.nil {buf : List UInt8} (h : Short buf rest) (hbuf : buf = frameBytes rest) : rest = [] := by
  cases rest with
  | nil => rfl
  | cons f fs =>
    have hlt := h f rfl
    have heq := congrArg List.length hbuf
    rw [frameBytes, flatMap_cons, length_append] at heq
    omega

/-- One decoding poll. -/
theorem Inv.decode (conn : Conn) (hfs : Plain fs) (hsplit : fs = done ++ rest) (hopened : conn.slot.state = .opened)
    (hstream : conn.slot.frameBuf ++ conn.rx ++ left = frameBytes rest) (hdata : out ++ conn.slot.content = payloads done)
    (hcalm : DecodeCalm conn size) :
    ∃ result, conn.decode size = some result ∧ result.value ≠ -1 ∧
      (result.data = [] → 0 < size → result.conn.slot.content = []) ∧
      ∃ done' rest', fs = done' ++ rest' ∧ Inv done' rest' result.conn (out ++ result.data) left := by
  have hsub : ∀ f ∈ rest, f ∈ fs := fun f hf => hsplit ▸ mem_append_right done hf
  rw [append_assoc] at hstream
  obtain ⟨now, later, buf, hrest, hframes, hbuf, hshort⟩ :=
    framesIn_stream (fun f hf => hfs.size f (hsub f hf)) (Nat.le_refl _) hstream
  obtain ⟨hroom, hclose⟩ := hcalm _ _ hframes
  have hpayloads : delivered (now.map Frame.decoded) = payloads now :=
    delivered_decoded fun f hf => hfs.whole f (hsub f (hrest ▸ mem_append_left later hf))
  obtain ⟨hcontent, hstate⟩ := foldl_handle hroom
  rw [hpayloads] at hroom hclose hcontent
  -- the slot behind the loop
  obtain ⟨slot, hslot⟩ : ∃ slot : WsSlot,
      slot = { (now.map Frame.decoded).foldl WsSlot.handle conn.slot with frameBuf := buf } := ⟨_, rfl⟩
  have hcontent' : slot.content = conn.slot.content ++ payloads now := by rw [hslot]; exact hcontent
  obtain ⟨hdeliver, hconn, hvalue⟩ := deliver_spec { conn with slot := slot } size
  obtain ⟨_, hpop, hpopState, hpopBuf⟩ := recvPop_spec slot size
  refine ⟨{ conn with slot := slot }.deliver size, ?_, hvalue, ?_, done ++ now, later, ?_, ?_, ?_, ?_, ?_⟩
  · rw [Conn.decode, drainFrames_eq, hframes, hslot]
    rfl
  · intro hnil hsize
    rw [hdeliver, take_eq_nil_iff] at hnil
    rw [hconn]
    simp only
    rw [hpop, hnil.resolve_left (by omega), drop_nil]
  · rw [hsplit, hrest, append_assoc]
  · rw [hconn]
    simp only
    rw [hpopBuf, hslot, append_assoc]
    exact hbuf
  · rw [hconn]
    simp only
    rw [hpopBuf, hslot]
    exact hshort
  · rw [hconn, hdeliver]
    simp only
    rw [hpop, append_assoc, take_append_drop, hcontent', ← append_assoc, hdata, payloads_append]
  · rw [hconn]
    simp only
    rw [hpopState, hpop]
    rcases hstate with hsame | ⟨hclosed, g, hg, hop⟩
    · refine Or.inl ?_
      rw [hslot]
      exact hsame.trans hopened
    · -- everything fits in the caller's buffer, and nothing comes behind the CLOSE
      refine Or.inr ⟨by rw [hslot]; exact hclosed, ?_, ?_⟩
      · rw [drop_eq_nil_iff, hcontent', length_append]
        exact hclose ⟨g, hg, hop⟩
      · obtain ⟨f, hf, rfl⟩ := mem_map.mp hg
        obtain ⟨a, b, rfl⟩ := append_of_mem hf
        have hlast := hfs.last (done ++ a) f (b ++ later) (by rw [hsplit, hrest]; simp) hop
        rw [payloads_append, append_eq_nil_iff] at hlast
        exact hlast.2

/-- The connection is over: only the ring is left. -/
theorem Inv.over {S : Socket} (hS : SocketLaws S) {socket : SocketState} (hsplit : fs = done ++ rest) (hopened : conn.slot.state = .opened)
    (h : Inv done rest conn out []) (hended : conn.ended S socket = true) (hfits : conn.slot.content.length ≤ size) :
    ∃ result, wsPollRecv S conn (some socket) size = some result ∧
      (result.data = [] → 0 < size → result.conn.slot.content = []) ∧
      (result.value = -1 → result.conn.slot.state = .closed) ∧
      ∃ done' rest', fs = done' ++ rest' ∧ Inv done' rest' result.conn (out ++ result.data) [] := by
  have hrx : conn.rx = [] := by
    simp only [Conn.ended, Bool.and_eq_true, Bool.not_eq_true'] at hended
    by_contra hne
    rw [hS.mayRecv_of_ne socket hne] at hended
    cases hended.2
  have hnone : rest = [] := by
    refine h.short.nil ?_
    have hstream := h.stream
    rwa [hrx, append_nil, append_nil] at hstream
  obtain ⟨slot, hslot⟩ : ∃ slot : WsSlot, slot = { conn.slot with state := .closed } := ⟨_, rfl⟩
  have hcontent : slot.content = conn.slot.content := by rw [hslot]; rfl
  have hpoll : wsPollRecv S conn (some socket) size = if slot.recvAvailable > 0 then
      some ⟨(slot.recvPop size).1.length, (slot.recvPop size).1, { conn with slot := (slot.recvPop size).2 }⟩
      else some ⟨-1, [], { conn with slot := slot }⟩ := by
    simp only [wsPollRecv, hopened, if_pos hended, hslot]
  obtain ⟨hpopData, hpop, hpopState, hpopBuf⟩ := recvPop_spec slot size
  have hempty : (slot.recvPop size).2.content = [] := by
    rw [hpop, hcontent, drop_eq_nil_iff]
    exact hfits
  rw [recvAvailable_eq] at hpoll
  split at hpoll
  · refine ⟨_, hpoll, fun _ _ => hempty, fun _ => hpopState.trans (by rw [hslot]), done, rest, hsplit,
      ?_, ?_, ?_, Or.inr ⟨hpopState.trans (by rw [hslot]), hempty, by rw [hnone]; rfl⟩⟩
    · simp only
      rw [hpopBuf, hslot]
      exact h.stream
    · simp only
      rw [hpopBuf, hslot]
      exact h.short
    · simp only
      rw [hempty, hpopData, hcontent, take_of_length_le hfits, append_nil]
      exact h.data
  · next hnil =>
    have hnil : slot.content = [] := length_eq_zero_iff.mp (by omega)
    refine ⟨_, hpoll, fun _ _ => hnil, fun _ => by rw [hslot], done, rest, hsplit,
      by rw [hslot]; exact h.stream, by rw [hslot]; exact h.short, ?_, Or.inr ⟨by rw [hslot], hnil, by rw [hnone]; rfl⟩⟩
    rw [append_nil]
    simp only
    rw [hcontent]
    exact h.data

/-- One poll. -/
theorem Inv.poll {S : Socket} (hS : SocketLaws S) {net : Option SocketState} (hfs : Plain fs) (hsplit : fs = done ++ rest) (h : Inv done rest conn out left)
    (hcalm : PollCalm S conn left net size) :
    ∃ result, wsPollRecv S conn net size = some result ∧
      (result.data = [] → 0 < size → result.conn.slot.content = []) ∧
      (result.value = -1 → result.conn.slot.state = .closed) ∧
      ∃ done' rest', fs = done' ++ rest' ∧ Inv done' rest' result.conn (out ++ result.data) left := by
  rcases h.state with hopened | ⟨hclosed, hcontent, hrest⟩
  · have hcalm := hcalm hopened
    cases net with
    | none =>
      obtain ⟨result, hresult, hvalue, hdrained, hinv⟩ := Inv.decode conn hfs hsplit hopened h.stream h.data hcalm
      exact ⟨result, by rw [wsPollRecv, hopened]; exact hresult, hdrained, fun hv => absurd hv hvalue, hinv⟩
    | some socket =>
      by_cases hended : conn.ended S socket = true
      · simp only [if_pos hended] at hcalm
        obtain ⟨rfl, hfits⟩ := hcalm
        exact Inv.over hS hsplit hopened h hended hfits
      · simp only [if_neg hended] at hcalm
        have hstream : (conn.read S).slot.frameBuf ++ (conn.read S).rx ++ left = frameBytes rest := by
          rw [← h.stream]
          simp only [Conn.read, append_assoc, append_cancel_left_eq]
          rw [← append_assoc, hS.recvSlice_append]
        obtain ⟨result, hresult, hvalue, hdrained, hinv⟩ :=
          Inv.decode (conn.read S) hfs hsplit hopened hstream h.data hcalm
        refine ⟨result, ?_, hdrained, fun hv => absurd hv hvalue, hinv⟩
        rw [wsPollRecv, hopened]
        simp only [if_neg hended]
        exact hresult
  · refine ⟨⟨-1, [], conn⟩, by simp only [wsPollRecv, hclosed], fun _ _ => hcontent, fun _ => hclosed, done, rest, hsplit, ?_⟩
    rw [append_nil]
    exact h

/-- A whole run. -/
theorem Inv.run {S : Socket} (hS : SocketLaws S) (hfs : Plain fs) {events : List Event} {before : List Event}
    (hsplit : fs = done ++ rest) (h : Inv done rest conn out left) (hcalm : Calm S conn left (before ++ events)) :
    ∃ out' conn' later done' rest', WebSocket.run S conn before = some (out', conn') ∧ left = arrived before ++ later ∧
      Calm S conn' later events ∧ fs = done' ++ rest' ∧ Inv done' rest' conn' (out ++ out') later := by
  induction before generalizing conn out left done rest with
  | nil => exact ⟨[], conn, left, done, rest, rfl, rfl, hcalm, hsplit, by rw [append_nil]; exact h⟩
  | cons event before ih =>
    cases event with
    | arrive bytes =>
      obtain ⟨later, rfl, hrest⟩ := hcalm
      obtain ⟨out', conn', later', done', rest', hrun, hlater, hcalm', hsplit', hinv⟩ := ih hsplit h.arrive hrest
      refine ⟨out', conn', later', done', rest', hrun, ?_, hcalm', hsplit', hinv⟩
      rw [hlater, arrived, append_assoc]
    | poll net size =>
      obtain ⟨hpoll, hrest⟩ := hcalm
      obtain ⟨result, hresult, _, _, done₁, rest₁, hsplit₁, hinv₁⟩ := h.poll hS hfs hsplit hpoll
      obtain ⟨out', conn', later', done', rest', hrun, hlater, hcalm', hsplit', hinv⟩ :=
        ih hsplit₁ hinv₁ (hrest result hresult)
      refine ⟨result.data ++ out', conn', later', done', rest', ?_, hlater, hcalm', hsplit', ?_⟩
      · rw [WebSocket.run, hresult]
        simp only [hrun, Option.map_some]
      · rw [← append_assoc]
        exact hinv

end

/-- **Delivery.**  The handshake reads nothing behind the response, no message is fragmented, nothing comes after a CLOSE,
and every poll has room: what the polls return is a prefix of the data in order, and all of it when a poll into a buffer
returns nothing although everything has arrived and was read, or reports the end. -/
theorem delivery_lossless {S : Socket} (hS : SocketLaws S) {response rx left : List UInt8} {fs : List Frame} {chunks : List (List UInt8)}
    {before : List Event} {net : Option SocketState} {size : Nat}
    (hstream : chunks.flatten ++ left = response ++ frameBytes fs)
    (hshake : handshake S [] [] chunks = .upgraded response rx) (hfs : Plain fs)
    (hcalm : Calm S (Conn.opened rx) left (before ++ [.poll net size])) :
    ∃ out conn result, run S (Conn.opened rx) before = some (out, conn) ∧ wsPollRecv S conn net size = some result ∧
      out ++ result.data <+: payloads fs ∧
      (0 < size → result.data = [] → arrived before = left → result.value = -1 ∨ result.conn.rx = [] →
        out = payloads fs) := by
  have hbytes := handshake_bytes S hS hshake
  rw [nil_append, nil_append] at hbytes
  rw [hbytes, append_assoc, append_cancel_left_eq] at hstream
  obtain ⟨out, conn, later, done, rest, hrun, hlater, ⟨hpoll, _⟩, hsplit, hinv⟩ :=
    (Inv.opened rx left hstream).run hS hfs rfl hcalm
  obtain ⟨result, hresult, hdrained, hend, done', rest', hsplit', hinv'⟩ := hinv.poll hS hfs hsplit hpoll
  rw [nil_append] at hinv'
  refine ⟨out, conn, result, hrun, hresult, ?_, ?_⟩
  · rw [hsplit', payloads_append, ← hinv'.data, append_assoc]
    exact prefix_append _ _
  · intro hsize hdata harrived hover
    have hnone : later = [] := by
      rw [← harrived, self_eq_append_right] at hlater
      exact hlater
    have hdone : out = payloads done' := by
      have h := hinv'.data
      rwa [hdrained hdata hsize, append_nil, hdata, append_nil] at h
    have hrest : payloads rest' = [] := by
      rcases hover with hvalue | hrx
      · rcases hinv'.state with hopened | ⟨_, _, hrest⟩
        · rw [hend hvalue] at hopened
          cases hopened
        · exact hrest
      · have h := hinv'.stream
        rw [hrx, hnone, append_nil, append_nil] at h
        rw [hinv'.short.nil h]
        rfl
    rw [hdone, hsplit', payloads_append, hrest, append_nil]

/-- A text frame of a server. -/
def hello : Frame := ⟨0x81, none, [104, 105]⟩

/-- A socket that gives what fits. -/
def tcpSocket : Socket :=
  { recvSlice := fun rx n => (rx.take n, rx.drop n)
    mayRecv := fun state rx => state.receiving || !rx.isEmpty }

theorem tcpSocket_laws : SocketLaws tcpSocket := by
  refine ⟨fun rx n => take_append_drop n rx, fun {rx} state h => ?_⟩
  cases rx with
  | nil => exact absurd rfl h
  | cons b rx => exact Bool.or_true _

/-- The connection after the poll that returned the two bytes. -/
def afterHello : Conn :=
  ⟨⟨.opened, Function.update (Function.update (fun _ => 0) 0 104) 1 105, 2, 2, []⟩, []⟩

/-- The response ends on its own and one frame follows; a poll returns its data, and the next one nothing. -/
theorem delivery_lossless_hello : ∃ conn result,
    run tcpSocket (Conn.opened []) [.arrive hello.bytes, .poll (some ⟨true, true⟩) 16] = some (payloads [hello], conn) ∧
      wsPollRecv tcpSocket conn (some ⟨true, true⟩) 16 = some result ∧ result.data = [] ∧ result.conn.rx = [] := by
  have hpoll : wsPollRecv tcpSocket ((Conn.opened []).arrive hello.bytes) (some ⟨true, true⟩) 16 =
      some ⟨2, [104, 105], afterHello⟩ := rfl
  have hlast : wsPollRecv tcpSocket afterHello (some ⟨true, true⟩) 16 = some ⟨0, [], afterHello⟩ := rfl
  have hplain : Plain [hello] := by
    refine ⟨by decide +kernel, by decide +kernel, fun before f after h hop => ?_⟩
    cases before with
    | nil =>
      obtain ⟨rfl, rfl⟩ := List.cons.inj h
      rfl
    | cons g before =>
      have hlen := congrArg List.length (List.cons.inj h).2
      simp at hlen
  have hcalm : Calm tcpSocket (Conn.opened []) hello.bytes
      ([.arrive hello.bytes, .poll (some ⟨true, true⟩) 16] ++ [.poll (some ⟨true, true⟩) 16]) := by
    refine ⟨[], (append_nil _).symm, fun _ frames rest h => ?_, fun result h => ⟨fun _ frames rest h' => ?_, fun _ _ => trivial⟩⟩
    · have hframes : framesIn 4 hello.bytes = some ([⟨opcodeText, [104, 105], 4⟩], []) := by decide +kernel
      obtain ⟨rfl, rfl⟩ := Prod.mk.inj (Option.some.inj (hframes.symm.trans h))
      have hempty : (((Conn.opened []).arrive hello.bytes).read tcpSocket).slot.content = [] := content_eq_nil.mpr rfl
      rw [hempty]
      decide
    · obtain rfl := Option.some.inj (hpoll.symm.trans h)
      obtain ⟨rfl, rfl⟩ := Prod.mk.inj (Option.some.inj h')
      have hempty : (afterHello.read tcpSocket).slot.content = [] := content_eq_nil.mpr rfl
      show (afterHello.read tcpSocket).slot.content.length + _ < _ ∧ _
      rw [hempty]
      decide
  obtain ⟨out, conn, result, hrun, hresult, -, hall⟩ := @delivery_lossless tcpSocket tcpSocket_laws
    [49, 48, 49, 13, 10, 13, 10] [] hello.bytes [hello] [[49, 48, 49, 13, 10, 13, 10]]
    [.arrive hello.bytes, .poll (some ⟨true, true⟩) 16] (some ⟨true, true⟩) 16 (by decide +kernel) (by decide +kernel) hplain hcalm
  have hconn : run tcpSocket (Conn.opened []) [.arrive hello.bytes, .poll (some ⟨true, true⟩) 16] =
      some ([104, 105], afterHello) := rfl
  obtain ⟨rfl, rfl⟩ := Prod.mk.inj (Option.some.inj (hconn.symm.trans hrun))
  obtain rfl := Option.some.inj (hlast.symm.trans hresult)
  exact ⟨afterHello, _, by rw [← hall (by decide) rfl (append_nil _) (Or.inr rfl)]; exact hrun, hresult, rfl, rfl⟩

/-- A fragmented message, frames that come with the response, and data behind which the server closes. -/
theorem delivery_lossy :
    ((run tcpSocket (Conn.opened []) [.arrive (frameBytes [⟨0x01, none, [97]⟩, ⟨0x80, none, [98]⟩]),
        .poll (some ⟨true, true⟩) 16, .poll (some ⟨true, true⟩) 16]).map fun r => (r.1, r.2.rx)) = some ([97], []) ∧
    payloads [⟨0x01, none, [97]⟩, ⟨0x80, none, [98]⟩] = [97, 98] ∧
    handshake tcpSocket [] [] [[49, 48, 49, 13, 10, 13, 10] ++ hello.bytes] =
      .upgraded ([49, 48, 49, 13, 10, 13, 10] ++ hello.bytes) [] ∧
    ((run tcpSocket (Conn.opened []) [.arrive (frameBytes [hello, ⟨0x88, none, []⟩]), .poll (some ⟨true, true⟩) 1,
        .poll (some ⟨true, true⟩) 1]).map fun r => (r.1, r.2.rx)) = some ([104], []) ∧
    payloads [hello, ⟨0x88, none, []⟩] = [104, 105] := by
  decide +kernel

end Folkering.WebSocket
