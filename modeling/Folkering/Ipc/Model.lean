/-
  IPC — messages, queues, blocking sends and replies.

  Each task has a bounded queue of received messages and a state word.  A send puts a numbered request into
  the target's queue and blocks the sender; a receive takes a message out; a reply finds the sender through
  the message or through a token made from its sender and number, checks the sender's state word, stores the
  reply and makes the sender runnable.
    * `Sys`   — the task table and the message counter, with the kernel functions on them;
    * `World` — the system with what has happened so far: to whom each message was sent, which tokens a task
      was handed, which received requests it has not answered;
    * `next`  — one call by one task, so that a run is any interleaving.
-/
import Mathlib

namespace Folkering.Ipc

/-! ## Messages and tokens -/

/-- The kinds of message. -/
inductive IpcType where
  | request
  | reply
  | notification
deriving Repr, DecidableEq

/-- A message as the kernel queues it. -/
structure Message where
  sender : Nat
  msgType : IpcType
  payload : List Nat
  msgId : Nat
deriving Repr, DecidableEq

/-- The key a caller token is masked with. -/
def obfuscationKey : Nat := 0xDEADBEEFCAFEBABE

/-- The token of a sender and a request: 16 bits of the one, 48 of the other. -/
def CallerToken.new (senderPid requestId : Nat) : Nat :=
  ((senderPid % 2 ^ 16) ||| ((requestId % 2 ^ 48) <<< 16)) ^^^ obfuscationKey

/-- Sender and message number of a token. -/
def CallerToken.decode (token : Nat) : Option (Nat × Nat) :=
  let raw := token ^^^ obfuscationKey
  let senderPid := raw % 2 ^ 16
  let requestId := (raw >>> 16) % 2 ^ 48
  if senderPid = 0 then none else some (senderPid, requestId)

theorem CallerToken.decode_new {pid id t r : Nat} (h : decode (new pid id) = some (t, r)) :
    t = pid % 2 ^ 16 ∧ r = id % 2 ^ 48 := by
  have hraw : new pid id ^^^ obfuscationKey = (id % 2 ^ 48) * 2 ^ 16 + pid % 2 ^ 16 := by
    have hlt : pid % 2 ^ 16 < 2 ^ 16 := Nat.mod_lt _ (by decide)
    rw [new, Nat.xor_assoc, Nat.xor_self, Nat.xor_zero, Nat.lor_comm,
      ← Nat.shiftLeft_add_eq_or_of_lt hlt, Nat.shiftLeft_eq]
  simp only [decode, hraw, Nat.shiftRight_eq_div_pow] at h
  split at h
  · cases h
  · simp only [Option.some.injEq, Prod.mk.injEq] at h
    omega

/-! ## Tasks -/

/-- A queue of at most 64 messages. -/
structure MessageQueue where
  messages : List Message
  bounded : messages.length ≤ 64

/-- No message. -/
def MessageQueue.empty : MessageQueue := ⟨[], by decide⟩

/-- Nothing when the queue is full. -/
def MessageQueue.push (q : MessageQueue) (msg : Message) : Option MessageQueue :=
  if h : q.messages.length < 64 then
    some ⟨q.messages ++ [msg], by rw [List.length_append, List.length_singleton]; omega⟩
  else none

/-- The oldest message. -/
def MessageQueue.pop (q : MessageQueue) : Option (Message × MessageQueue) :=
  match q with
  | ⟨[], _⟩ => none
  | ⟨msg :: rest, h⟩ => some (msg, ⟨rest, Nat.le_of_succ_le h⟩)

/-- The states of a task. -/
inductive TaskState where
  | runnable
  | running
  | blockedOnReceive
  | blockedOnSend (target : Nat)
  | waitingForReply (requestId : Nat)
  | exited
deriving Repr, DecidableEq

/-- The part of a task that IPC reads and writes. -/
structure Task where
  state : TaskState
  recvQueue : MessageQueue
  /-- the reply a send waits for, and at a server the message it received last -/
  ipcReply : Option Message
  blockedOn : Option Nat
  /-- the value a system call returns with -/
  rax : Nat
  /-- the send the task is in: its server and the number of its message -/
  inSend : Option (Nat × Nat)

/-- A task as it is created. -/
def Task.new : Task :=
  { state := .runnable, recvQueue := .empty, ipcReply := none, blockedOn := none, rax := 0, inSend := none }

/-- The errors of the calls. -/
inductive Errno where
  | EINVAL
  | EPERM
  | ENOBUFS
  | EDEAD
  | ECAPFAIL
  | EWOULDBLOCK
  | ESRCH
deriving Repr, DecidableEq

/-- The tasks and the next message number. -/
structure Sys where
  tasks : Nat → Option Task
  nextMessageId : Nat

namespace Sys

/-- Changes one task. -/
def update (s : Sys) (t : Nat) (f : Task → Task) : Sys :=
  { s with tasks := Function.update s.tasks t ((s.tasks t).map f) }

/-- The counter after a number was taken. -/
def tick (s : Sys) : Sys := { s with nextMessageId := (s.nextMessageId + 1) % 2 ^ 64 }

/-- A task that waits for a message is made runnable. -/
def wakeReceiver (s : Sys) (t : Nat) : Sys :=
  s.update t fun task => if task.state = .blockedOnReceive then { task with state := .runnable } else task

/-- Replace the queue of a task. -/
def setQueue (s : Sys) (t : Nat) (q : MessageQueue) : Sys :=
  s.update t fun task => { task with recvQueue := q }

/-! ## Sends -/

/-- What both sends do up to the queue: the message, and the system with it in the queue.  `permitted` is
    the sender's capability for the target, `transferred` whether the capability in the message (if any)
    could be transferred. -/
def enqueue (s : Sys) (current target : Nat) (msgType : IpcType) (payload : List Nat)
    (permitted transferred : Bool) : Except Errno Message × Sys :=
  match s.tasks target with
  | none => (.error .EINVAL, s)
  | some task =>
    if task.state = .exited then (.error .EDEAD, s)
    else if !permitted then (.error .EPERM, s)
    else
      let msg := { sender := current, msgType, payload, msgId := s.nextMessageId }
      if !transferred then (.error .ECAPFAIL, s.tick)
      else match task.recvQueue.push msg with
        | none => (.error .ENOBUFS, s.tick)
        | some q => (.ok msg, s.tick.setQueue target q)

/-- The sender waits for the reply to a message. -/
def block (s : Sys) (current target msgId : Nat) : Sys :=
  s.update current fun task =>
    { task with state := .blockedOnSend target, blockedOn := some target, ipcReply := none
                inSend := some (target, msgId) }

/-- A send up to the point where the sender gives up the processor. -/
def ipcSend (s : Sys) (current target : Nat) (payload : List Nat) (permitted transferred : Bool) :
    Except Errno Message × Sys :=
  match s.enqueue current target .request payload permitted transferred with
  | (.error e, s) => (.error e, s)
  | (.ok msg, s) => (.ok msg, (s.block current target msg.msgId).wakeReceiver target)

/-- Queue a notification and go on. -/
def ipcSendAsync (s : Sys) (current target : Nat) (payload : List Nat) (permitted transferred : Bool) :
    Except Errno Message × Sys :=
  match s.enqueue current target .notification payload permitted transferred with
  | (.error e, s) => (.error e, s)
  | (.ok msg, s) => (.ok msg, s.wakeReceiver target)

/-! ## Receives -/

/-- Takes the first message of a task's queue. -/
def popMessage (s : Sys) (current : Nat) : Option (Message × Sys) := do
  let task ← s.tasks current
  let (msg, q) ← task.recvQueue.pop
  return (msg, s.setQueue current q)

/-- The received message is kept for the reply. -/
def keepMessage (s : Sys) (current : Nat) (msg : Message) : Sys :=
  s.update current fun task => { task with ipcReply := some msg }

/-- Take the oldest message, or block. -/
def ipcReceive (s : Sys) (current : Nat) : Except Errno Message × Sys :=
  match s.popMessage current with
  | some (msg, s) => (.ok msg, s.keepMessage current msg)
  | none => (.error .EWOULDBLOCK, s.update current fun task => { task with state := .blockedOnReceive })

/-- The sender of a request, if it is blocked on the receiver, now waits for the request's number. -/
def markWaiting (s : Sys) (current : Nat) (msg : Message) : Sys :=
  if msg.msgType = .request then
    s.update msg.sender fun task =>
      if task.state = .blockedOnSend current then { task with state := .waitingForReply msg.msgId } else task
  else s

/-- Take the oldest message, with a token for the reply. -/
def ipcRecvAsync (s : Sys) (current : Nat) : Except Errno (Nat × Message) × Sys :=
  match s.popMessage current with
  | some (msg, s) =>
    (.ok (CallerToken.new msg.sender msg.msgId, msg), (s.markWaiting current msg).keepMessage current msg)
  | none => (.error .EWOULDBLOCK, s)

/-! ## Replies -/

/-- Stores the reply and makes the sender runnable. -/
def deliver (s : Sys) (current sender : Nat) (payload : List Nat) : Sys :=
  let reply := { sender := current, msgType := .reply, payload, msgId := s.nextMessageId }
  s.tick.update sender fun task =>
    { task with ipcReply := some reply, rax := payload.headD 0, state := .runnable, blockedOn := none }

/-- The sender must be blocked on the replying task. -/
def ipcReply (s : Sys) (current : Nat) (request : Message) (payload : List Nat) : Except Errno Unit × Sys :=
  match s.tasks request.sender with
  | none => (.error .EINVAL, s)
  | some task =>
    if task.state = .blockedOnSend current then (.ok (), s.deliver current request.sender payload)
    else (.error .EINVAL, s)

/-- The sender must be waiting for the request of the token. -/
def ipcReplyWithToken (s : Sys) (current token : Nat) (payload : List Nat) : Except Errno Unit × Sys :=
  match CallerToken.decode token with
  | none => (.error .EINVAL, s)
  | some (senderPid, requestId) =>
    match s.tasks senderPid with
    | none => (.error .ESRCH, s)
    | some task =>
      if task.state = .waitingForReply requestId then (.ok (), s.deliver current senderPid payload)
      else (.error .EINVAL, s)

theorem popMessage_some {s s' : Sys} {t : Nat} {msg : Message} (h : s.popMessage t = some (msg, s')) :
    ∃ task q, s.tasks t = some task ∧ task.recvQueue.pop = some (msg, q) ∧ s' = s.setQueue t q := by
  simp only [popMessage, Option.bind_eq_bind, Option.bind_eq_some_iff, Prod.exists, Option.pure_def,
    Option.some.injEq, Prod.mk.injEq] at h
  obtain ⟨task, hk, m, q, hq, rfl, rfl⟩ := h
  exact ⟨task, q, hk, hq, rfl⟩

/-- A reply is refused, or its sender was blocked on the replying task. -/
theorem ipcReply_cases (s : Sys) (t : Nat) (request : Message) (payload : List Nat) :
    (∃ e, s.ipcReply t request payload = (.error e, s)) ∨
    ∃ task, s.tasks request.sender = some task ∧ task.state = .blockedOnSend t ∧
      s.ipcReply t request payload = (.ok (), s.deliver t request.sender payload) := by
  unfold ipcReply
  cases s.tasks request.sender with
  | none => exact .inl ⟨_, rfl⟩
  | some task =>
    by_cases hs : task.state = .blockedOnSend t
    · exact .inr ⟨task, rfl, hs, if_pos hs⟩
    · exact .inl ⟨_, if_neg hs⟩

theorem ipcReplyWithToken_cases (s : Sys) (t token : Nat) (payload : List Nat) :
    (∃ e, s.ipcReplyWithToken t token payload = (.error e, s)) ∨
    ∃ pid id task, CallerToken.decode token = some (pid, id) ∧ s.tasks pid = some task ∧
      task.state = .waitingForReply id ∧ s.ipcReplyWithToken t token payload = (.ok (), s.deliver t pid payload) := by
  unfold ipcReplyWithToken
  cases CallerToken.decode token with
  | none => exact .inl ⟨_, rfl⟩
  | some p =>
    dsimp only
    cases hk : s.tasks p.1 with
    | none => exact .inl ⟨_, rfl⟩
    | some task =>
      by_cases hs : task.state = .waitingForReply p.2
      · exact .inr ⟨p.1, p.2, task, rfl, hk, hs, if_pos hs⟩
      · exact .inl ⟨_, if_neg hs⟩

/-- The message that the reply system call answers: the one the task keeps. -/
def keptMessage (s : Sys) (current : Nat) : Option Message := (s.tasks current).bind (·.ipcReply)

/-- The state of a task. -/
def stateOf (s : Sys) (t : Nat) : Option TaskState := (s.tasks t).map (·.state)

/-- The send a task is inside of: target and number. -/
def sendOf (s : Sys) (t : Nat) : Option (Nat × Nat) := (s.tasks t).bind (·.inSend)

/-- The messages a task has not received. -/
def queueOf (s : Sys) (t : Nat) : List Message := ((s.tasks t).map (·.recvQueue.messages)).getD []

end Sys

/-! ## Runs -/

/-- The system and its history. -/
structure World where
  sys : Sys
  /-- sender and target of the message with a number -/
  sentTo : Nat → Option (Nat × Nat)
  /-- the tokens that `ipc_recv_async` gave to a task -/
  handed : Nat → List Nat
  /-- the requests that a task has received and not answered -/
  held : Nat → List Message

/-- What a task can do. -/
inductive Act where
  | send (task target : Nat) (payload : List Nat) (permitted transferred : Bool)
  | sendAsync (task target : Nat) (payload : List Nat) (permitted transferred : Bool)
  | receive (task : Nat)
  | recvAsync (task : Nat)
  | reply (task : Nat) (payload : List Nat)
  | replyToken (task token : Nat) (payload : List Nat)
  /-- nothing else is runnable and the send returns at once, with the reply if there is one -/
  | yieldReturns (task : Nat)
  /-- the scheduler comes back to a sender that was made runnable -/
  | resume (task : Nat)

/-- The task executes: it is not inside a send. -/
def Sys.executes (s : Sys) (t : Nat) : Bool := (s.tasks t).any fun task => task.inSend.isNone

namespace World

/-- Note the sender and the target of a message. -/
def recordSent (w : World) (target : Nat) (msg : Message) : World :=
  { w with sentTo := Function.update w.sentTo msg.msgId (some (msg.sender, target)) }

/-- A received request is to be answered. -/
def recordReceived (w : World) (t : Nat) (msg : Message) : World :=
  { w with held := if msg.msgType = .request then Function.update w.held t (msg :: w.held t) else w.held }

/-- Note that a task was handed a token. -/
def recordToken (w : World) (t token : Nat) : World :=
  { w with handed := Function.update w.handed t (token :: w.handed t) }

/-- The request with this sender and number is answered. -/
def recordAnswer (w : World) (t sender msgId : Nat) : World :=
  let unanswered := (w.held t).filter fun r => !(r.sender == sender && r.msgId == msgId)
  { w with held := Function.update w.held t unanswered }

/-- The world after a send or a receive that gave `result`. -/
def afterSend (w : World) (target : Nat) : Except Errno Message × Sys → World
  | (.error _, s) => { w with sys := s }
  | (.ok msg, s) => { w with sys := s }.recordSent target msg

/-- Note a reply that was accepted. -/
def afterReply (w : World) (t sender msgId : Nat) : Except Errno Unit × Sys → World
  | (.error _, s) => { w with sys := s }
  | (.ok (), s) => { w with sys := s }.recordAnswer t sender msgId

end World

/-- One act; nothing when it is not enabled. -/
def next (w : World) : Act → Option World
  | .send t target payload permitted transferred =>
    if w.sys.executes t then
      some (w.afterSend target (w.sys.ipcSend t target payload permitted transferred))
    else none
  | .sendAsync t target payload permitted transferred =>
    if w.sys.executes t then
      some (w.afterSend target (w.sys.ipcSendAsync t target payload permitted transferred))
    else none
  | .receive t =>
    if w.sys.executes t then
      match w.sys.ipcReceive t with
      | (.error _, s) => some { w with sys := s }
      | (.ok msg, s) => some ({ w with sys := s }.recordReceived t msg)
    else none
  | .recvAsync t =>
    if w.sys.executes t then
      match w.sys.ipcRecvAsync t with
      | (.error _, s) => some { w with sys := s }
      | (.ok (token, msg), s) => some (({ w with sys := s }.recordReceived t msg).recordToken t token)
    else none
  | .reply t payload =>
    if w.sys.executes t then
      match w.sys.keptMessage t with
      | none => some w
      | some request =>
        some (w.afterReply t request.sender request.msgId (w.sys.ipcReply t request payload))
    else none
  | .replyToken t token payload =>
    if w.sys.executes t then
      let request := (CallerToken.decode token).getD (0, 0)
      some (w.afterReply t request.1 request.2 (w.sys.ipcReplyWithToken t token payload))
    else none
  | .yieldReturns t =>
    if (w.sys.sendOf t).isSome then
      some { w with sys := w.sys.update t fun task => { task with ipcReply := none, inSend := none } }
    else none
  | .resume t =>
    if (w.sys.sendOf t).isSome ∧ w.sys.stateOf t = some .runnable then
      some { w with sys := w.sys.update t fun task => { task with inSend := none } }
    else none

/-! ## What an act does to the system -/

/-- The system after an act that is enabled. -/
def Act.sysAfter (s : Sys) : Act → Sys
  | .send t target payload permitted transferred => (s.ipcSend t target payload permitted transferred).2
  | .sendAsync t target payload permitted transferred => (s.ipcSendAsync t target payload permitted transferred).2
  | .receive t => (s.ipcReceive t).2
  | .recvAsync t => (s.ipcRecvAsync t).2
  | .reply t payload =>
    match s.keptMessage t with
    | none => s
    | some request => (s.ipcReply t request payload).2
  | .replyToken t token payload => (s.ipcReplyWithToken t token payload).2
  | .yieldReturns t => s.update t fun task => { task with ipcReply := none, inSend := none }
  | .resume t => s.update t fun task => { task with inSend := none }

theorem World.afterSend_sys (w : World) (target : Nat) (r : Except Errno Message × Sys) :
    (w.afterSend target r).sys = r.2 := by
  obtain ⟨_ | _, _⟩ := r <;> rfl

theorem World.afterReply_sys (w : World) (t sender id : Nat) (r : Except Errno Unit × Sys) :
    (w.afterReply t sender id r).sys = r.2 := by
  obtain ⟨_ | _, _⟩ := r <;> rfl

theorem next_sys {w w' : World} {a : Act} (h : next w a = some w') : w'.sys = a.sysAfter w.sys := by
  cases a with
  | send | sendAsync =>
    obtain ⟨-, h⟩ := Option.ite_none_right_eq_some.mp h
    cases h
    exact World.afterSend_sys _ _ _
  | receive | recvAsync =>
    obtain ⟨-, h⟩ := Option.ite_none_right_eq_some.mp h
    simp only [Act.sysAfter]
    split at h
    · next hr =>
      cases h
      rw [hr]
    · next hr =>
      cases h
      rw [hr]
      rfl
  | reply =>
    obtain ⟨-, h⟩ := Option.ite_none_right_eq_some.mp h
    simp only [Act.sysAfter]
    split at h
    · cases h
      rfl
    · cases h
      exact World.afterReply_sys _ _ _ _ _
  | replyToken =>
    obtain ⟨-, h⟩ := Option.ite_none_right_eq_some.mp h
    cases h
    exact World.afterReply_sys _ _ _ _ _
  | yieldReturns | resume =>
    obtain ⟨-, h⟩ := Option.ite_none_right_eq_some.mp h
    cases h
    rfl

/-- The tasks that exist, before any message. -/
def World.boot (existing : Nat → Bool) : World :=
  { sys := { tasks := fun t => if existing t then some .new else none, nextMessageId := 1 }
    sentTo := fun _ => none, handed := fun _ => [], held := fun _ => [] }

/-- The task that a reply makes runnable, the replying task and the number of the message it answers. -/
def completes (s : Sys) : Act → Option (Nat × Nat × Nat)
  | .reply u payload =>
    match s.keptMessage u with
    | none => none
    | some request =>
      match s.ipcReply u request payload with
      | (.ok (), _) => some (request.sender, u, request.msgId)
      | _ => none
  | .replyToken u token payload =>
    match CallerToken.decode token, s.ipcReplyWithToken u token payload with
    | some (t, id), (.ok (), _) => some (t, u, id)
    | _, _ => none
  | _ => none

/-- A reply that completes a send delivers to its sender, a task of the table, and touches no other. -/
theorem sysAfter_of_completes {s : Sys} {a : Act} {t u id : Nat} (h : completes s a = some (t, u, id)) :
    ∃ payload, (s.tasks t).isSome = true ∧ a.sysAfter s = s.deliver u t payload := by
  cases a with
  | reply v payload =>
    cases hkept : s.keptMessage v with
    | none => simp [completes, hkept] at h
    | some request =>
      rcases s.ipcReply_cases v request payload with ⟨e, hr⟩ | ⟨task, htask, -, hr⟩
      · simp [completes, hkept, hr] at h
      · simp only [completes, Act.sysAfter, hkept, hr] at h ⊢
        cases h
        exact ⟨payload, by rw [htask, Option.isSome_some], rfl⟩
  | replyToken v token payload =>
    rcases s.ipcReplyWithToken_cases v token payload with ⟨e, hr⟩ | ⟨pid, id, task, hdec, htask, -, hr⟩
    · simp [completes, hr] at h
    · simp only [completes, Act.sysAfter, hdec, hr] at h ⊢
      cases h
      exact ⟨payload, by rw [htask, Option.isSome_some], rfl⟩
  | _ => cases h

end Folkering.Ipc
