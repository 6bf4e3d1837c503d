/-
  The streaming daemon: which machine code a connection can make it run.

  After HELLO, `handle_conn` reads frames for as long as the peer sends them.  CODE carries code bytes and a 32-byte tag
  and replaces the executable mapping, DATA writes into the linear memory, EXEC runs the mapping in a child.

  1. **Program** — `readFrame`, `handleFrame` and the loop `handleConn` over the bytes of the connection.  Whether a tag
     verifies is a parameter; whether a mapping and a child can be made, how the child ends and whether the result can be
     written is the system's answer in each round (`World`).
  2. **Specification** — `latest`, read off the history of frames alone: the code of the last CODE frame whose tag
     verified and that was installed.
  3. **The crux** (`code_step`) — one frame changes the installed code exactly as it changes `latest`.
-/
import Folkering.Lib.Layout
import Folkering.Lib.LittleEndian

namespace Folkering.Streamer

open Layout LittleEndian

/-- Bytes of the connection. -/
abbrev Bytes := List UInt8

/-- `FRAME_CODE`. -/
def frameCode : UInt8 := 0x02
/-- `FRAME_DATA`. -/
def frameData : UInt8 := 0x03
/-- `FRAME_EXEC`. -/
def frameExec : UInt8 := 0x04
/-- `FRAME_BYE`. -/
def frameBye : UInt8 := 0x07

/-- `MAX_FRAME_PAYLOAD`. -/
def maxFramePayload : Nat := 8 * 1024 * 1024
/-- `LINEAR_MEM_SIZE`. -/
def linearMemSize : Nat := 4 * 1024 * 1024
/-- The length of an HMAC tag. -/
def tagLen : Nat := 32

/-- One frame from the front of what the peer sends; `none` ends the connection. -/
def readFrame (stream : Bytes) : Option (UInt8 × Bytes × Bytes) :=
  match stream with
  | ty :: rest =>
    let len := fromLe (rest.take 4)
    if rest.length < 4 ∨ maxFramePayload < len ∨ rest.length < 4 + len then none
    else some (ty, (rest.drop 4).take len, rest.drop (4 + len))
  | [] => none

/-- What a connection works on. -/
structure Daemon where
  /-- the bytes of the executable mapping -/
  code : Option Bytes
  mem : Nat → UInt8

/-- What the daemon writes back. -/
inductive Reply where
  | error (code : Nat) (reason : String)
  | result (rv : Int)
deriving Repr, DecidableEq

/-- How `exec_with_timeout` ends. -/
inductive Child where
  /-- no pipe, or no child: nothing runs -/
  | notStarted (reason : String)
  /-- the child crashed, hung or could not be waited for -/
  | aborted (reason : String)
  | returned (rv : Int)
deriving Repr, DecidableEq

/-- The system's answers in one round of the loop. -/
structure World where
  mapping : Except String Unit
  child : Child
  written : Bool

/-- What one frame led to. -/
structure Outcome where
  daemon : Daemon
  reply : Option Reply := none
  /-- the code that was run -/
  ran : Option Bytes := none
  closed : Bool := false

/-- The frame is answered with an error. -/
def reject (s : Daemon) (code : Nat) (reason : String) : Outcome := { daemon := s, reply := some (.error code reason) }

/-- `parse_data`: the offset and the bytes. -/
def parseData (buf : Bytes) : Option (Nat × Bytes) :=
  if buf.length < 4 then none else some (fromLe (buf.take 4), buf.drop 4)

/-- A byte in the text of an error. -/
def hex (b : UInt8) : String := String.ofList [Nat.digitChar (b.toNat / 16), Nat.digitChar (b.toNat % 16)]

section

variable (verify : Bytes → Bytes → Bool)

/-- A CODE frame. -/
def handleCode (w : World) (s : Daemon) (payload : Bytes) : Outcome :=
  if payload.length < tagLen then reject s 7 "CODE missing HMAC tag (payload too short)"
  else
    let codeBytes := payload.take (payload.length - tagLen)
    if !verify codeBytes (payload.drop (payload.length - tagLen)) then reject s 7 "CODE HMAC verification failed"
    else if codeBytes = [] then reject s 1 "CODE with empty payload"
    else match w.mapping with
      | .ok _ => { daemon := { s with code := some codeBytes } }
      | .error e => reject s 2 ("mmap failed: " ++ e)

/-- A DATA frame. -/
def handleData (s : Daemon) (payload : Bytes) : Outcome :=
  match parseData payload with
  | some (offset, body) =>
    if linearMemSize < offset + body.length then reject s 3 "DATA write past mem end"
    else { daemon := { s with mem := put s.mem offset body } }
  | none => reject s 4 "bad DATA frame: frame truncated"

/-- An EXEC frame. -/
def handleExec (w : World) (s : Daemon) : Outcome :=
  match s.code with
  | some code => match w.child with
    | .returned rv => { daemon := s, reply := some (.result rv), ran := some code, closed := !w.written }
    | .aborted reason => { reject s 8 ("EXEC aborted: " ++ reason) with ran := some code }
    | .notStarted reason => reject s 8 ("EXEC aborted: " ++ reason)
  | none => reject s 5 "EXEC without CODE"

/-- The body of the loop. -/
def handleFrame (w : World) (s : Daemon) (ty : UInt8) (payload : Bytes) : Outcome :=
  if ty = frameCode then handleCode verify w s payload
  else if ty = frameData then handleData s payload
  else if ty = frameExec then handleExec w s
  else if ty = frameBye then { daemon := s, closed := true }
  else reject s 6 ("unknown frame type 0x" ++ hex ty)

/-- One round: the frame, the system's answers and the state it found. -/
structure Round where
  found : Daemon
  ty : UInt8
  payload : Bytes
  world : World

/-- What the round leads to. -/
def Round.outcome (r : Round) : Outcome := handleFrame verify r.world r.found r.ty r.payload

/-- The rounds of a connection, for as many answers of the system as are given. -/
def handleConn (s : Daemon) (stream : Bytes) : List World → List Round
  | [] => []
  | w :: worlds => match readFrame stream with
    | none => []
    | some (ty, payload, rest) =>
      let r : Round := { found := s, ty := ty, payload := payload, world := w }
      r :: if (r.outcome verify).closed then [] else handleConn (r.outcome verify).daemon rest worlds

/-! ## What may run -/

/-- The code a frame installs: that of a CODE frame, not empty, whose last 32 bytes verify, if the mapping is made. -/
def Round.installs (r : Round) : Option Bytes :=
  let codeBytes := r.payload.take (r.payload.length - tagLen)
  if r.ty = frameCode ∧ tagLen ≤ r.payload.length ∧ verify codeBytes (r.payload.drop (r.payload.length - tagLen)) ∧
      codeBytes ≠ [] ∧ r.world.mapping.isOk then some codeBytes else none

/-- The code of the latest installing frame of a history. -/
def latest (seen : List Round) : Option Bytes := seen.reverse.findSome? (Round.installs verify)

/-- There is a child to run the code. -/
def Child.started : Child → Bool
  | .notStarted _ => false
  | _ => true

/-- What a round may do after a history. -/
structure Sound (seen : List Round) (r : Round) : Prop where
  exec : r.ty = frameExec → (r.outcome verify).ran = if r.world.child.started then latest verify seen else none
  idle : r.ty ≠ frameExec → (r.outcome verify).ran = none
  /-- the frame is rejected -/
  kept : ∀ code reason, (r.outcome verify).reply = some (.error code reason) → (r.outcome verify).daemon = r.found
  /-- a DATA frame is accepted -/
  written : r.ty = frameData → (r.outcome verify).reply = none → ∃ offset body,
    parseData r.payload = some (offset, body) ∧ offset + body.length ≤ linearMemSize ∧
    (r.outcome verify).daemon.code = r.found.code ∧ Lies (r.outcome verify).daemon.mem offset body ∧
    ∀ i, i < offset ∨ offset + body.length ≤ i → (r.outcome verify).daemon.mem i = r.found.mem i

end

section

variable {verify : Bytes → Bytes → Bool}

/-- One frame changes the installed code as it changes `latest`. -/
theorem code_step (r : Round) : (r.outcome verify).daemon.code = (r.installs verify).or r.found.code := by
  simp only [Round.outcome, handleFrame, Round.installs]
  by_cases hcode : r.ty = frameCode
  · simp only [hcode, if_true, true_and, handleCode]
    cases hmap : r.world.mapping <;> split_ifs <;> simp_all [reject, Except.isOk, Except.toBool]; omega
  · simp only [hcode, if_false, false_and, Option.none_or, handleData, handleExec]
    repeat' split
    all_goals rfl

/-- The latest code after one more round. -/
theorem latest_snoc (seen : List Round) (r : Round) :
    latest verify (seen ++ [r]) = (r.installs verify).or (latest verify seen) := by
  rw [latest, List.reverse_append, List.reverse_singleton, List.singleton_append, List.findSome?_cons]
  cases r.installs verify <;> rfl

/-- **One round** in a state that has the latest code of the history. -/
theorem Sound.of_latest {seen : List Round} {r : Round} (h : r.found.code = latest verify seen) :
    Sound verify seen r := by
  constructor
  · intro hexec
    rw [Round.outcome, hexec, ← h]
    change (handleExec r.world r.found).ran = if r.world.child.started then r.found.code else none
    unfold handleExec
    cases hcode : r.found.code with
    | none => exact (ite_self _).symm
    | some code => cases r.world.child <;> rfl
  · intro hexec
    simp only [Round.outcome, handleFrame, handleCode, handleData, hexec, if_false]
    repeat' split
    all_goals rfl
  · intro code reason
    simp only [Round.outcome, handleFrame, handleCode, handleData, handleExec]
    repeat' split
    all_goals first | exact fun _ => rfl | exact fun hreply => nomatch hreply
  · intro hdata
    have hout : r.outcome verify = handleData r.found r.payload := by
      rw [Round.outcome, hdata]
      rfl
    rw [hout, handleData]
    intro hreply
    split at hreply
    · rename_i offset body hparse
      split at hreply
      · cases hreply
      · rename_i hfits
        rw [hparse]
        simp only [if_neg hfits]
        exact ⟨offset, body, rfl, Nat.not_lt.mp hfits, trivial, lies_put r.found.mem offset body, fun i => put_apart⟩
    · cases hreply

/-- **A whole connection**, from a state that has the latest code. -/
theorem handleConn_sound (worlds : List World) {past : List Round} {s : Daemon} {stream : Bytes}
    (hs : s.code = latest verify past) {seen later : List Round} {r : Round}
    (h : handleConn verify s stream worlds = seen ++ r :: later) : Sound verify (past ++ seen) r := by
  induction worlds generalizing past s stream seen with
  | nil => exact absurd h.symm (List.append_ne_nil_of_right_ne_nil _ (List.cons_ne_nil _ _))
  | cons w worlds ih =>
    rw [handleConn] at h
    split at h
    · exact absurd h.symm (List.append_ne_nil_of_right_ne_nil _ (List.cons_ne_nil _ _))
    · rename_i ty payload rest _
      cases seen with
      | nil =>
        obtain ⟨rfl, _⟩ := List.cons.inj h
        rw [List.append_nil]
        exact Sound.of_latest hs
      | cons r₀ seen =>
        obtain ⟨rfl, hrest⟩ := List.cons.inj h
        split at hrest
        · exact absurd hrest.symm (List.append_ne_nil_of_right_ne_nil _ (List.cons_ne_nil _ _))
        · rw [List.append_cons]
          refine ih ?_ hrest
          rw [code_step, latest_snoc]
          exact congrArg _ hs

end

/-- A peer installs one byte of code and runs it. -/
def oneByteProgram : Bytes := [2, 33, 0, 0, 0, 7] ++ List.replicate 32 1 ++ [4, 0, 0, 0, 0]

end Folkering.Streamer
