/-
  IPC at the granularity of its locks.

  The calls of `Ipc.Model` are atomic.  In the kernel each of them is a sequence of short sections, one lock at a time,
  and other tasks run in between.  Here a task has a place in its call (`Pc`) and takes one section at a time:
    * a send looks the target up, checks its state word, gets its message a number, pushes it, blocks its task and
      wakes the target;
    * a receive pops, and when there was nothing marks its task blocked in a SECOND section;
    * an exit marks its task, takes a list of all tasks, looks at each of them and leaves the table.
  `sends_uninterrupted` and `receives_uninterrupted` connect the two levels: a call that is not interrupted is the one
  of the model.

  The second half is about wake-ups.  A sender that has pushed still has to wake its target (`AboutToWake`).  If its
  wake-up falls between the two sections of a receive, it finds a running task and does nothing, and the receiver then
  blocks with a message in its queue.  `no_lost_wakeup`: that is the only way.
-/
import Folkering.Ipc.Waiting

namespace Folkering.Ipc

open Function Option

/-! ## Places and calls -/

/-- Where a task is in its call. -/
inductive Pc where
  /-- not in a call -/
  | user
  /-- the target was found; its state word is looked at next -/
  | sendCheck (sync : Bool) (target : Nat) (payload : List Nat) (permitted transferred : Bool)
  /-- the target was alive; permission, message number and capability come next -/
  | sendNumber (sync : Bool) (target : Nat) (payload : List Nat) (permitted transferred : Bool)
  | sendPush (sync : Bool) (target : Nat) (msg : Message)
  | sendBlock (target msgId : Nat)
  | sendWake (sync : Bool) (target : Nat)
  /-- the sender has given up the processor -/
  | sendYield
  /-- the queue was empty; the task is marked blocked next -/
  | recvBlock
  /-- a message was popped; its sender is looked at next -/
  | recvMark (msg : Message)
  /-- the message is kept for the reply next -/
  | recvKeep (msg : Message)
  | exitSnapshot
  /-- the tasks still to be looked at -/
  | exitSweep (todo : List Nat)
  /-- `unblock_waiters_for` has returned -/
  | exitRemove
  | gone
deriving Repr, DecidableEq

/-- The calls a task can be inside of. -/
inductive IpcCall where
  | send (sync : Bool) (target : Nat) (payload : List Nat) (permitted transferred : Bool)
  | receive
  | recvAsync
  | reply (payload : List Nat)
  | replyToken (token : Nat) (payload : List Nat)
  | exit
deriving Repr, DecidableEq

/-- The system, the ids in the task table and the place of each task.  A task that left the table lives on while a
    sender holds a reference to it, so `sys.tasks` keeps it. -/
structure Fine where
  sys : Sys
  table : List Nat
  pc : Nat → Pc

/-- Frees a task that waits for the exiting one. -/
def Sys.sweep (s : Sys) (exiting tid : Nat) : Sys :=
  s.update tid fun t =>
    if t.blockedOn = some exiting ∧ (t.state = .blockedOnSend exiting ∨ t.state.isWaiting = true) then
      { t with rax := 2 ^ 64 - 1, state := .runnable, blockedOn := none, ipcReply := none }
    else t

namespace Fine

/-- The task, while it is in the table. -/
def getTask (w : Fine) (t : Nat) : Option Task := if t ∈ w.table then w.sys.tasks t else none

/-- The task goes to a new place with a new system. -/
def goto (w : Fine) (t : Nat) (sys : Sys) (pc : Pc) : Fine := { w with sys, pc := update w.pc t pc }

/-- The first section of a call.  A reply has only one that changes anything: the one that checks its sender and
    delivers. -/
def call (w : Fine) (t : Nat) : IpcCall → Fine
  | .send sync target payload permitted transferred =>
    match w.getTask target with
    | none => w
    | some _ => w.goto t w.sys (.sendCheck sync target payload permitted transferred)
  | .receive =>
    match w.sys.popMessage t with
    | some (msg, s) => w.goto t s (.recvKeep msg)
    | none => w.goto t w.sys .recvBlock
  | .recvAsync =>
    match w.sys.popMessage t with
    | some (msg, s) => w.goto t s (.recvMark msg)
    | none => w
  | .reply payload =>
    match w.sys.keptMessage t with
    | none => w
    | some request =>
      match w.getTask request.sender with
      | none => w
      | some _ => w.goto t (w.sys.ipcReply t request payload).2 .user
  | .replyToken token payload =>
    match (CallerToken.decode token).bind fun p => w.getTask p.1 with
    | none => w
    | some _ => w.goto t (w.sys.ipcReplyWithToken t token payload).2 .user
  | .exit => w.goto t (w.sys.update t fun task => { task with state := .exited }) .exitSnapshot

/-- The next section of the call a task is in. -/
def advance (w : Fine) (t : Nat) : Option Fine :=
  match w.pc t with
  | .user | .sendYield | .gone => none
  | .sendCheck sync target payload permitted transferred =>
    if w.sys.stateOf target = some .exited then some (w.goto t w.sys .user)
    else some (w.goto t w.sys (.sendNumber sync target payload permitted transferred))
  | .sendNumber sync target payload permitted transferred =>
    if !permitted then some (w.goto t w.sys .user)
    else
      let msgType := if sync then .request else .notification
      let msg := { sender := t, msgType, payload, msgId := w.sys.nextMessageId }
      if !transferred then some (w.goto t w.sys.tick .user)
      else some (w.goto t w.sys.tick (.sendPush sync target msg))
  | .sendPush sync target msg =>
    match (w.sys.tasks target).bind fun task => task.recvQueue.push msg with
    | none => some (w.goto t w.sys .user)
    | some q =>
      some (w.goto t (w.sys.setQueue target q) (if sync then .sendBlock target msg.msgId else .sendWake false target))
  | .sendBlock target msgId => some (w.goto t (w.sys.block t target msgId) (.sendWake true target))
  | .sendWake sync target => some (w.goto t (w.sys.wakeReceiver target) (if sync then .sendYield else .user))
  | .recvBlock => some (w.goto t (w.sys.update t fun task => { task with state := .blockedOnReceive }) .user)
  | .recvMark msg =>
    some (w.goto t (if msg.sender ∈ w.table then w.sys.markWaiting t msg else w.sys) (.recvKeep msg))
  | .recvKeep msg => some (w.goto t (w.sys.keepMessage t msg) .user)
  | .exitSnapshot => some (w.goto t w.sys (.exitSweep w.table))
  | .exitSweep [] => some (w.goto t w.sys .exitRemove)
  | .exitSweep (tid :: todo) =>
    some (w.goto t (if tid ∈ w.table then w.sys.sweep t tid else w.sys) (.exitSweep todo))
  | .exitRemove => some { w.goto t w.sys .gone with table := w.table.erase t }

end Fine

/-- What can happen next. -/
inductive Move where
  | call (t : Nat) (c : IpcCall)
  | advance (t : Nat)
  /-- nothing else is runnable and a send returns at once -/
  | yieldReturns (t : Nat)
  /-- the scheduler comes back to a sender that was made runnable -/
  | resume (t : Nat)
  /-- a task is created, under an id that was not used before -/
  | spawn (t : Nat)
deriving Repr, DecidableEq

/-- One move of one task. -/
def Fine.move (w : Fine) : Move → Option Fine
  | .call t c => if w.pc t = .user ∧ t ∈ w.table then some (w.call t c) else none
  | .advance t => w.advance t
  | .yieldReturns t =>
    if w.pc t = .sendYield then
      some (w.goto t (w.sys.update t fun task => { task with ipcReply := none, inSend := none }) .user)
    else none
  | .resume t =>
    if w.pc t = .sendYield ∧ w.sys.stateOf t = some .runnable then
      some (w.goto t (w.sys.update t fun task => { task with inSend := none }) .user)
    else none
  | .spawn t =>
    if w.sys.tasks t = none then
      some { w with
        sys := { w.sys with tasks := update w.sys.tasks t (some .new) }
        table := t :: w.table }
    else none

/-- The given tasks, before any call. -/
def Fine.boot (ids : List Nat) : Fine :=
  { sys := { tasks := fun t => if t ∈ ids then some .new else none, nextMessageId := 1 }
    table := ids, pc := fun _ => .user }

/-- The states of the runs whose moves all meet a condition. -/
inductive FineReach (ok : Fine → Move → Prop) (ids : List Nat) : Fine → Prop
  | boot : FineReach ok ids (.boot ids)
  | move {w w' : Fine} (m : Move) (h : FineReach ok ids w) (hok : ok w m) (hm : w.move m = some w') :
      FineReach ok ids w'

/-- The state after a sequence of moves, all enabled and within the condition. -/
def Fine.run (ok : Fine → Move → Prop) [∀ w m, Decidable (ok w m)] (w : Fine) : List Move → Option Fine
  | [] => some w
  | m :: ms => if ok w m then (w.move m).bind fun w' => run ok w' ms else none

theorem FineReach.run {ok : Fine → Move → Prop} [∀ w m, Decidable (ok w m)] {ids : List Nat} :
    ∀ {ms : List Move} {w w' : Fine}, FineReach ok ids w → w.run ok ms = some w' → FineReach ok ids w'
  | [], w, w', h, hr => by
    cases hr
    exact h
  | m :: ms, w, w', h, hr => by
    simp only [Fine.run, ite_none_right_eq_some, bind_eq_some_iff] at hr
    obtain ⟨hok, v, hv, hr⟩ := hr
    exact FineReach.run (.move m h hok hv) hr

/-- An invariant of the runs. -/
theorem FineReach.invariant {ok : Fine → Move → Prop} {ids : List Nat} {P : Fine → Prop} (h0 : P (.boot ids))
    (hstep : ∀ {w w' m}, P w → ok w m → w.move m = some w' → P w') {w : Fine} (h : FineReach ok ids w) : P w := by
  induction h with
  | boot => exact h0
  | move m _ hok hm ih => exact hstep ih hok hm

/-- The rest of the system after a task has moved. -/
theorem Fine.goto_sys (w : Fine) (t : Nat) (s : Sys) (pc : Pc) : (w.goto t s pc).sys = s := rfl

theorem Fine.goto_pc (w : Fine) (t : Nat) (s : Sys) (pc : Pc) (u : Nat) :
    (w.goto t s pc).pc u = if u = t then pc else w.pc u := by
  show update w.pc t pc u = _
  rw [update_apply]

/-- The task that moves. -/
def Move.task : Move → Nat
  | .call t _ | .advance t | .yieldReturns t | .resume t | .spawn t => t

theorem Fine.pc_of_goto {w : Fine} {t u : Nat} (h : u ≠ t) (s : Sys) (pc : Pc) : (w.goto t s pc).pc u = w.pc u := by
  rw [goto_pc, if_neg h]

/-- A move changes the place of one task only. -/
theorem Fine.pc_of_move {w w' : Fine} {m : Move} {u : Nat} (hm : w.move m = some w') (hu : u ≠ m.task) :
    w'.pc u = w.pc u := by
  cases m with
  | call t c =>
    simp only [Fine.move, ite_none_right_eq_some, some.injEq] at hm
    obtain ⟨-, rfl⟩ := hm
    cases c <;> simp only [Fine.call]
    · split
      · rfl
      · exact pc_of_goto hu _ _
    · split
      · exact pc_of_goto hu _ _
      · exact pc_of_goto hu _ _
    · split
      · exact pc_of_goto hu _ _
      · rfl
    · split
      · rfl
      · split
        · rfl
        · exact pc_of_goto hu _ _
    · split
      · rfl
      · exact pc_of_goto hu _ _
    · exact pc_of_goto hu _ _
  | advance t =>
    simp only [Fine.move, Fine.advance] at hm
    split at hm
    · cases hm
    · cases hm
    · cases hm
    · split at hm <;> cases hm <;> exact pc_of_goto hu _ _
    · split at hm
      · cases hm
        exact pc_of_goto hu _ _
      · split at hm <;> cases hm <;> exact pc_of_goto hu _ _
    · split at hm <;> cases hm <;> exact pc_of_goto hu _ _
    all_goals
      cases hm
      exact update_of_ne hu _ _
  | yieldReturns t =>
    simp only [Fine.move, ite_none_right_eq_some, some.injEq] at hm
    rw [← hm.2]
    exact pc_of_goto hu _ _
  | resume t =>
    simp only [Fine.move, ite_none_right_eq_some, some.injEq] at hm
    rw [← hm.2]
    exact pc_of_goto hu _ _
  | spawn t =>
    simp only [Fine.move, ite_none_right_eq_some, some.injEq] at hm
    rw [← hm.2]

theorem Fine.pc_of_run {ok : Fine → Move → Prop} [∀ w m, Decidable (ok w m)] {u : Nat} : ∀ {ms : List Move}
    {w w' : Fine}, w.run ok ms = some w' → (∀ m ∈ ms, u ≠ m.task) → w'.pc u = w.pc u
  | [], w, w', hr, _ => by
    cases hr
    rfl
  | m :: ms, w, w', hr, hu => by
    simp only [Fine.run, ite_none_right_eq_some, bind_eq_some_iff] at hr
    obtain ⟨-, v, hv, hr⟩ := hr
    rw [pc_of_run hr fun m' hm' => hu m' (List.mem_cons_of_mem _ hm'), pc_of_move hv (hu m List.mem_cons_self)]

/-! ## Calls that are not interrupted -/

/-- One task takes its sections until it is done or cannot go on. -/
def Fine.settle : Nat → Fine → Nat → Fine
  | 0, w, _ => w
  | n + 1, w, t => match w.advance t with
    | some w' => settle n w' t
    | none => w

@[simp] theorem Fine.goto_pc_self (w : Fine) (t : Nat) (s : Sys) (pc : Pc) : (w.goto t s pc).pc t = pc := by
  rw [goto_pc, if_pos rfl]

@[simp] theorem Fine.goto_goto (w : Fine) (t : Nat) (s s' : Sys) (pc pc' : Pc) :
    (w.goto t s pc).goto t s' pc' = w.goto t s' pc' := by
  simp [goto]

theorem Fine.settle_user {n : Nat} {w : Fine} {t : Nat} (h : w.pc t = .user) : w.settle n t = w := by
  cases n with
  | zero => rfl
  | succ n => simp [settle, advance, h]

/-- **A send that is not interrupted** is the one of the model. -/
theorem sends_uninterrupted {w : Fine} {t target : Nat} (sync : Bool) (payload : List Nat)
    (permitted transferred : Bool) (hpc : w.pc t = .user)
    (hlisted : ∀ k, w.sys.tasks target = some k → target ∈ w.table) :
    ((w.call t (.send sync target payload permitted transferred)).settle 5 t).sys =
      (if sync then w.sys.ipcSend t target payload permitted transferred
        else w.sys.ipcSendAsync t target payload permitted transferred).2 := by
  unfold Sys.ipcSend Sys.ipcSendAsync Sys.enqueue
  cases hk : w.sys.tasks target with
  | none =>
    have hcall : w.call t (.send sync target payload permitted transferred) = w := by
      simp [Fine.call, Fine.getTask, hk]
    rw [hcall, Fine.settle_user hpc]
    cases sync <;> rfl
  | some task =>
    have hcall : w.call t (.send sync target payload permitted transferred) =
        w.goto t w.sys (.sendCheck sync target payload permitted transferred) := by
      simp [Fine.call, Fine.getTask, hk, hlisted task hk]
    rw [hcall]
    by_cases hexited : task.state = .exited
    · cases sync <;> simp [Fine.settle, Fine.advance, Fine.goto_sys, Sys.stateOf, hk, hexited]
    · cases permitted with
      | false => cases sync <;> simp [Fine.settle, Fine.advance, Fine.goto_sys, Sys.stateOf, hk, hexited]
      | true =>
        cases transferred with
        | false => cases sync <;> simp [Fine.settle, Fine.advance, Fine.goto_sys, Sys.stateOf, hk, hexited]
        | true =>
          have htick : w.sys.tick.tasks target = some task := hk
          cases sync with
          | false =>
            cases hq : task.recvQueue.push ⟨t, .notification, payload, w.sys.nextMessageId⟩ <;>
              simp [Fine.settle, Fine.advance, Fine.goto_sys, Sys.stateOf, hk, hexited, htick, hq]
          | true =>
            cases hq : task.recvQueue.push ⟨t, .request, payload, w.sys.nextMessageId⟩ <;>
              simp [Fine.settle, Fine.advance, Fine.goto_sys, Sys.stateOf, hk, hexited, htick, hq]

/-- A send of task 1 to task 2. -/
theorem sends_uninterrupted_boot : (((Fine.boot [1, 2]).call 1 (.send true 2 [7] true true)).settle 5 1).sys =
    ((Fine.boot [1, 2]).sys.ipcSend 1 2 [7] true true).2 :=
  sends_uninterrupted true [7] true true rfl fun _ _ => by decide

/-- **A receive that is not interrupted** is the one of the model. -/
theorem receives_uninterrupted (w : Fine) (t : Nat) :
    ((w.call t .receive).settle 1 t).sys = (w.sys.ipcReceive t).2 := by
  unfold Sys.ipcReceive
  cases hpop : w.sys.popMessage t <;> simp [Fine.call, hpop, Fine.settle, Fine.advance, Fine.goto_sys]

/-! ## Lost wake-ups -/

/-- A sender that has pushed a message to `r` and has not woken it yet. -/
def Pc.AboutToWake (r : Nat) : Pc → Prop
  | .sendBlock target _ => target = r
  | .sendWake _ target => target = r
  | _ => False

/-- The task is blocked in a receive, or found its queue empty and will be. -/
def Fine.Dozes (w : Fine) (r : Nat) : Prop := w.sys.stateOf r = some .blockedOnReceive ∨ w.pc r = .recvBlock

/-- Whoever dozes over a message is about to be woken. -/
def Fine.Guarded (w : Fine) : Prop :=
  ∀ r, w.Dozes r → w.sys.queueOf r ≠ [] → ∃ t, (w.pc t).AboutToWake r

/-- **No wake-up is lost**: a task blocked in a receive with a message in its queue is about to be woken. -/
def Fine.NoLostWakeup (w : Fine) : Prop :=
  ∀ r, w.sys.stateOf r = some .blockedOnReceive → w.sys.queueOf r ≠ [] → ∃ t, (w.pc t).AboutToWake r

/-- The condition on a move: no sender looks whether to wake a task that is between the two sections of a receive. -/
def WakesInTime (w : Fine) : Move → Prop
  | .advance t =>
    match w.pc t with
    | .sendWake _ r => w.pc r ≠ .recvBlock
    | _ => True
  | _ => True

instance (w : Fine) (m : Move) : Decidable (WakesInTime w m) := by
  unfold WakesInTime
  split
  · split <;> infer_instance
  · infer_instance

/-- No task is newly blocked in a receive, and no queue newly has a message. -/
def Sys.Quieter (s s' : Sys) : Prop :=
  ∀ r, (s'.stateOf r = some .blockedOnReceive → s.stateOf r = some .blockedOnReceive) ∧
    (s'.queueOf r ≠ [] → s.queueOf r ≠ [])

namespace Sys

variable {s : Sys}

theorem Quieter.refl (s : Sys) : s.Quieter s := fun _ => ⟨id, id⟩

theorem Quieter.trans {s' s'' : Sys} (h : s.Quieter s') (h' : s'.Quieter s'') : s.Quieter s'' := fun r =>
  ⟨fun hs => (h r).1 ((h' r).1 hs), fun hq => (h r).2 ((h' r).2 hq)⟩

/-- A change of one task that does not block it in a receive and gives it no message. -/
theorem quieter_update {t : Nat} {f : Task → Task}
    (hs : ∀ k, s.tasks t = some k → (f k).state = .blockedOnReceive → k.state = .blockedOnReceive)
    (hq : ∀ k, s.tasks t = some k → (f k).recvQueue.messages ≠ [] → k.recvQueue.messages ≠ []) :
    s.Quieter (s.update t f) := by
  intro r
  by_cases hr : r = t
  · subst hr
    cases hk : s.tasks r with
    | none => simp [stateOf, queueOf, update, hk]
    | some k => simpa [stateOf, queueOf, update, hk] using ⟨hs k hk, hq k hk⟩
  · simp [stateOf, queueOf, update, update_of_ne hr]

theorem quieter_tick : s.Quieter s.tick := fun _ => ⟨id, id⟩

theorem quieter_keepMessage (t : Nat) (msg : Message) : s.Quieter (s.keepMessage t msg) :=
  quieter_update (fun _ _ h => h) fun _ _ h => h

theorem quieter_popMessage {t : Nat} {msg : Message} {s' : Sys} (h : s.popMessage t = some (msg, s')) :
    s.Quieter s' := by
  obtain ⟨task, q, hk, hpop, rfl⟩ := popMessage_some h
  refine quieter_update (fun _ _ h => h) fun k hk' _ => ?_
  cases hk.symm.trans hk'
  rw [MessageQueue.pop_messages hpop]
  exact List.cons_ne_nil _ _

theorem quieter_wakeReceiver (t : Nat) : s.Quieter (s.wakeReceiver t) := by
  refine quieter_update (fun k _ h => ?_) fun k _ h => ?_
  · split at h
    · cases h
    · exact h
  · split at h <;> exact h

theorem quieter_markWaiting (t : Nat) (msg : Message) : s.Quieter (s.markWaiting t msg) := by
  unfold markWaiting
  split
  · refine quieter_update (fun k _ h => ?_) fun k _ h => ?_
    · split at h
      · cases h
      · exact h
    · split at h <;> exact h
  · exact Quieter.refl s

theorem quieter_deliver (t sender : Nat) (payload : List Nat) : s.Quieter (s.deliver t sender payload) :=
  quieter_tick.trans (quieter_update (fun _ _ h => by cases h) fun _ _ h => h)

theorem quieter_ipcReply (t : Nat) (request : Message) (payload : List Nat) :
    s.Quieter (s.ipcReply t request payload).2 := by
  rcases s.ipcReply_cases t request payload with ⟨e, h⟩ | ⟨task, -, -, h⟩
  · rw [h]
    exact Quieter.refl s
  · rw [h]
    exact quieter_deliver t _ payload

theorem quieter_ipcReplyWithToken (t token : Nat) (payload : List Nat) :
    s.Quieter (s.ipcReplyWithToken t token payload).2 := by
  rcases s.ipcReplyWithToken_cases t token payload with ⟨e, h⟩ | ⟨pid, id, task, -, -, -, h⟩
  · rw [h]
    exact Quieter.refl s
  · rw [h]
    exact quieter_deliver t _ payload

theorem quieter_block (t target id : Nat) : s.Quieter (s.block t target id) :=
  quieter_update (fun _ _ h => by cases h) fun _ _ h => h

theorem quieter_sweep (exiting tid : Nat) : s.Quieter (s.sweep exiting tid) := by
  refine quieter_update (fun k _ h => ?_) fun k _ h => ?_
  · split at h
    · cases h
    · exact h
  · split at h <;> exact h

end Sys

namespace Fine

variable {w w' : Fine}

/-- The pushed message is in the queue of the target only. -/
theorem queueOf_setQueue_ne {s : Sys} {r target : Nat} (q : MessageQueue) (h : r ≠ target) :
    (s.setQueue target q).queueOf r = s.queueOf r := Sys.queueOf_update_ne h

theorem Dozes.of_goto {t r : Nat} {s : Sys} {pc : Pc} (hpc : r = t → pc ≠ .recvBlock) (h : (w.goto t s pc).Dozes r) :
    s.stateOf r = some .blockedOnReceive ∨ w.pc r = .recvBlock := by
  refine h.imp id fun hr => ?_
  rw [goto_pc] at hr
  split at hr
  · next hrt => exact absurd hr (hpc hrt)
  · exact hr

/-- **A section**: whoever dozes over a message after it is owed a wake-up now, or dozed over one before and is owed
    what it was. -/
theorem Guarded.after {t : Nat} {s : Sys} {pc : Pc} (h : w.Guarded)
    (hstep : ∀ r, (w.goto t s pc).Dozes r → s.queueOf r ≠ [] → pc.AboutToWake r ∨
      w.Dozes r ∧ w.sys.queueOf r ≠ [] ∧ ((w.pc t).AboutToWake r → pc.AboutToWake r)) : (w.goto t s pc).Guarded := by
  intro r hr hq
  rcases hstep r hr hq with hpc | ⟨hdoze, hqueue, howes⟩
  · exact ⟨t, by rwa [goto_pc_self]⟩
  · obtain ⟨u, hu⟩ := h r hdoze hqueue
    refine ⟨u, ?_⟩
    rw [goto_pc]
    split
    · next hut =>
      subst hut
      exact howes hu
    · exact hu

/-- A section that neither blocks in a receive nor gives a message, of a task that goes on owing the wake-ups it
    owed. -/
theorem Guarded.quiet {t : Nat} {s : Sys} {pc : Pc} (h : w.Guarded) (hs : w.sys.Quieter s)
    (howes : ∀ r, (w.pc t).AboutToWake r → pc.AboutToWake r) (hpc : pc ≠ .recvBlock) : (w.goto t s pc).Guarded :=
  h.after fun r hr hq => .inr ⟨(hr.of_goto fun _ => hpc).imp (hs r).1 id, (hs r).2 hq, howes r⟩

/-- A receive that finds nothing. -/
theorem Guarded.foundEmpty {t : Nat} (h : w.Guarded) (hpc : w.pc t = .user) (hq : w.sys.queueOf t = []) :
    (w.goto t w.sys .recvBlock).Guarded := by
  refine h.after fun r hr hqr => .inr ⟨hr.of_goto ?_, hqr, by simp [hpc, Pc.AboutToWake]⟩
  rintro rfl
  exact absurd hq hqr

/-- A push: from now on the sender owes the wake-up. -/
theorem Guarded.push {t target : Nat} {q : MessageQueue} {pc : Pc} (h : w.Guarded)
    (howes : ∀ r, ¬ (w.pc t).AboutToWake r) (hpc : pc.AboutToWake target) (hblock : pc ≠ .recvBlock) :
    (w.goto t (w.sys.setQueue target q) pc).Guarded := by
  refine h.after fun r hr hq => ?_
  by_cases hrt : r = target
  · subst hrt
    exact .inl hpc
  · refine .inr ⟨(hr.of_goto fun _ => hblock).imp (fun hr => ?_) id, ?_, fun ho => absurd ho (howes r)⟩
    · simpa [Sys.stateOf, Sys.setQueue, Sys.update, update_of_ne hrt] using hr
    · rwa [queueOf_setQueue_ne q hrt] at hq

/-- A wake-up in time: its target dozes no longer. -/
theorem Guarded.wake {t target : Nat} {sync : Bool} {pc : Pc} (h : w.Guarded) (hpc : w.pc t = .sendWake sync target)
    (htime : w.pc target ≠ .recvBlock) (hblock : pc ≠ .recvBlock) :
    (w.goto t (w.sys.wakeReceiver target) pc).Guarded := by
  refine h.after fun r hr hq => ?_
  have hr := hr.of_goto fun _ => hblock
  refine .inr ⟨hr.imp (Sys.quieter_wakeReceiver target r).1 id, (Sys.quieter_wakeReceiver target r).2 hq, fun ho => ?_⟩
  rw [hpc] at ho
  cases ho
  rcases hr with hr | hr
  · simp only [Sys.stateOf, Sys.wakeReceiver, Sys.update, update_self, Option.map_map,
      map_eq_some_iff, Function.comp] at hr
    obtain ⟨k, -, hk⟩ := hr
    split at hk
    · cases hk
    · next hstate => exact absurd hk hstate
  · exact absurd hr htime

/-- The receiver blocks; it dozed before. -/
theorem Guarded.block {t : Nat} (h : w.Guarded) (hpc : w.pc t = .recvBlock) :
    (w.goto t (w.sys.update t fun task => { task with state := .blockedOnReceive }) .user).Guarded := by
  refine h.after fun r hr hq => .inr ⟨?_, ?_, by simp [hpc, Pc.AboutToWake]⟩
  · by_cases hrt : r = t
    · subst hrt
      exact .inr hpc
    · refine (hr.of_goto fun he => absurd he hrt).imp (fun hr => ?_) id
      simpa [Sys.stateOf, Sys.update, update_of_ne hrt] using hr
  · have hsame : ∀ k : Task, { k with state := .blockedOnReceive }.recvQueue = k.recvQueue := fun _ => rfl
    rwa [Sys.queueOf_update hsame] at hq

theorem queueOf_of_pop_none {s : Sys} {t : Nat} (h : s.popMessage t = none) : s.queueOf t = [] := by
  unfold Sys.popMessage at h
  cases hk : s.tasks t with
  | none => simp [Sys.queueOf, hk]
  | some task =>
    rw [Sys.queueOf_of_tasks hk]
    rcases hq : task.recvQueue with ⟨_ | ⟨msg, rest⟩, hb⟩
    · rfl
    · simp [hk, hq, MessageQueue.pop] at h

/-- The same for a task that owes nothing where it is. -/
theorem Guarded.free {t : Nat} {s : Sys} {pc pc' : Pc} (h : w.Guarded) (hs : w.sys.Quieter s) (hpc : w.pc t = pc)
    (hno : ∀ r, ¬ pc.AboutToWake r) (hpc' : pc' ≠ .recvBlock) : (w.goto t s pc').Guarded :=
  h.quiet hs (fun r hr => absurd (hpc ▸ hr) (hno r)) hpc'

/-- The first section of a call. -/
theorem Guarded.call {t : Nat} (h : w.Guarded) (hpc : w.pc t = .user) (c : IpcCall) : (w.call t c).Guarded := by
  cases c with
  | send sync target payload permitted transferred =>
    simp only [Fine.call]
    split
    · exact h
    · exact h.free (Sys.Quieter.refl _) hpc (fun _ => id) (by simp)
  | receive =>
    simp only [Fine.call]
    cases hpop : w.sys.popMessage t with
    | none => exact h.foundEmpty hpc (queueOf_of_pop_none hpop)
    | some p => exact h.free (Sys.quieter_popMessage hpop) hpc (fun _ => id) (by simp)
  | recvAsync =>
    simp only [Fine.call]
    cases hpop : w.sys.popMessage t with
    | none => exact h
    | some p => exact h.free (Sys.quieter_popMessage hpop) hpc (fun _ => id) (by simp)
  | reply payload =>
    simp only [Fine.call]
    split
    · exact h
    · split
      · exact h
      · exact h.free (Sys.quieter_ipcReply t _ payload) hpc (fun _ => id) (by simp)
  | replyToken token payload =>
    simp only [Fine.call]
    split
    · exact h
    · exact h.free (Sys.quieter_ipcReplyWithToken t token payload) hpc (fun _ => id) (by simp)
  | exit => exact h.free (Sys.quieter_update (fun _ _ hs => by cases hs) fun _ _ hq => hq) hpc (fun _ => id) (by simp)

/-- The later sections. -/
theorem Guarded.advance {t : Nat} (h : w.Guarded) (hok : WakesInTime w (.advance t)) (hm : w.advance t = some w') :
    w'.Guarded := by
  cases hpc : w.pc t with
  | user => simp [Fine.advance, hpc] at hm
  | sendYield => simp [Fine.advance, hpc] at hm
  | gone => simp [Fine.advance, hpc] at hm
  | sendCheck sync target payload permitted transferred =>
    simp only [Fine.advance, hpc] at hm
    split at hm
    · cases hm
      exact h.free (Sys.Quieter.refl _) hpc (fun _ => id) (by simp)
    · cases hm
      exact h.free (Sys.Quieter.refl _) hpc (fun _ => id) (by simp)
  | sendNumber sync target payload permitted transferred =>
    simp only [Fine.advance, hpc] at hm
    split at hm
    · cases hm
      exact h.free (Sys.Quieter.refl _) hpc (fun _ => id) (by simp)
    · split at hm
      · cases hm
        exact h.free Sys.quieter_tick hpc (fun _ => id) (by simp)
      · cases hm
        exact h.free Sys.quieter_tick hpc (fun _ => id) (by simp)
  | sendPush sync target msg =>
    simp only [Fine.advance, hpc] at hm
    split at hm
    · cases hm
      exact h.free (Sys.Quieter.refl _) hpc (fun _ => id) (by simp)
    · cases hm
      cases sync
      · exact h.push (by simp [hpc, Pc.AboutToWake]) rfl (by simp)
      · exact h.push (by simp [hpc, Pc.AboutToWake]) rfl (by simp)
  | sendBlock target msgId =>
    simp only [Fine.advance, hpc, some.injEq] at hm
    subst hm
    refine h.quiet (Sys.quieter_block t target msgId) (fun r hr => ?_) (by simp)
    rw [hpc] at hr
    exact hr
  | sendWake sync target =>
    simp only [Fine.advance, hpc, some.injEq] at hm
    subst hm
    simp only [WakesInTime, hpc] at hok
    exact h.wake hpc hok (by cases sync <;> simp)
  | recvBlock =>
    simp only [Fine.advance, hpc, some.injEq] at hm
    subst hm
    exact h.block hpc
  | recvMark msg =>
    simp only [Fine.advance, hpc, some.injEq] at hm
    subst hm
    refine h.free ?_ hpc (fun _ => id) (by simp)
    split
    · exact Sys.quieter_markWaiting t msg
    · exact Sys.Quieter.refl _
  | recvKeep msg =>
    simp only [Fine.advance, hpc, some.injEq] at hm
    subst hm
    exact h.free (Sys.quieter_keepMessage t msg) hpc (fun _ => id) (by simp)
  | exitSnapshot =>
    simp only [Fine.advance, hpc, some.injEq] at hm
    subst hm
    exact h.free (Sys.Quieter.refl _) hpc (fun _ => id) (by simp)
  | exitSweep todo =>
    cases todo with
    | nil =>
      simp only [Fine.advance, hpc, some.injEq] at hm
      subst hm
      exact h.free (Sys.Quieter.refl _) hpc (fun _ => id) (by simp)
    | cons tid todo =>
      simp only [Fine.advance, hpc, some.injEq] at hm
      subst hm
      refine h.free ?_ hpc (fun _ => id) (by simp)
      split
      · exact Sys.quieter_sweep t tid
      · exact Sys.Quieter.refl _
  | exitRemove =>
    simp only [Fine.advance, hpc, some.injEq] at hm
    subst hm
    exact @Guarded.free w t w.sys _ .gone h (Sys.Quieter.refl _) hpc (fun _ => id) (by simp)

/-- **The step lemma**: a move in time keeps the guard. -/
theorem Guarded.move {m : Move} (h : w.Guarded) (hok : WakesInTime w m) (hm : w.move m = some w') : w'.Guarded := by
  cases m with
  | call t c =>
    simp only [Fine.move, ite_none_right_eq_some, some.injEq] at hm
    obtain ⟨⟨hpc, -⟩, rfl⟩ := hm
    exact h.call hpc c
  | advance t => exact h.advance hok hm
  | yieldReturns t =>
    simp only [Fine.move, ite_none_right_eq_some, some.injEq] at hm
    obtain ⟨hpc, rfl⟩ := hm
    exact h.free (Sys.quieter_update (fun _ _ hs => hs) fun _ _ hq => hq) hpc (fun _ => id) (by simp)
  | resume t =>
    simp only [Fine.move, ite_none_right_eq_some, some.injEq] at hm
    obtain ⟨⟨hpc, -⟩, rfl⟩ := hm
    exact h.free (Sys.quieter_update (fun _ _ hs => hs) fun _ _ hq => hq) hpc (fun _ => id) (by simp)
  | spawn t =>
    simp only [Fine.move, ite_none_right_eq_some, some.injEq] at hm
    obtain ⟨-, rfl⟩ := hm
    intro r hr hq
    have hrt : r ≠ t := by
      rintro rfl
      exact hq (by simp [Sys.queueOf, Task.new, MessageQueue.empty])
    have hdoze : w.Dozes r := by simpa [Dozes, Sys.stateOf, update_of_ne hrt] using hr
    exact h r hdoze (by simpa [Sys.queueOf, update_of_ne hrt] using hq)

end Fine

/-- **No lost wake-up.**  In every run in which no sender looks whether to wake a task that has found its queue empty
    and is not marked blocked yet, a task blocked in a receive with a message in its queue is about to be woken. -/
theorem no_lost_wakeup {ids : List Nat} {w : Fine} (h : FineReach WakesInTime ids w) : w.NoLostWakeup := by
  have hguard : w.Guarded := h.invariant (fun r hr hq => absurd ?_ hq) Fine.Guarded.move
  · exact fun r hr hq => hguard r (.inl hr) hq
  · simp only [Fine.boot, Sys.queueOf]
    split <;> rfl

/-- Task 2 blocks in a receive; task 1 has pushed a message to it and has the wake-up before it. -/
theorem no_lost_wakeup_pushed :
    ∃ w, FineReach WakesInTime [1, 2] w ∧ w.sys.stateOf 2 = some .blockedOnReceive ∧ (w.sys.queueOf 2).length = 1 ∧
      w.NoLostWakeup := by
  have hrun : ((Fine.boot [1, 2]).run WakesInTime [.call 2 .receive, .advance 2,
      .call 1 (.send true 2 [7, 0, 0, 0] true true), .advance 1, .advance 1, .advance 1]).map (fun w =>
        (w.sys.stateOf 2, (w.sys.queueOf 2).length)) = some (some .blockedOnReceive, 1) := by decide +kernel
  obtain ⟨w, hw, hfacts⟩ := map_eq_some_iff.mp hrun
  obtain ⟨hstate, hqueue⟩ := Prod.mk.inj hfacts
  have h := FineReach.run .boot hw
  exact ⟨w, h, hstate, hqueue, no_lost_wakeup h⟩

/-- **A lost wake-up.**  Task 2 finds its queue empty; task 1 sends it a notification, all sections of it; task 2 is
    marked blocked.  Nobody is in a call any more, and task 2 waits over a message. -/
theorem wakeup_lost :
    ∃ w, FineReach (fun _ _ => True) [1, 2] w ∧ (∀ t, w.pc t = .user) ∧ w.sys.stateOf 2 = some .blockedOnReceive ∧
      (w.sys.queueOf 2).length = 1 ∧ ¬ w.NoLostWakeup := by
  have hrun : ((Fine.boot [1, 2]).run (fun _ _ => True) [.call 2 .receive,
      .call 1 (.send false 2 [7, 0, 0, 0] true true), .advance 1, .advance 1, .advance 1, .advance 1,
      .advance 2]).map (fun w => (w.pc 1, w.pc 2, w.sys.stateOf 2, (w.sys.queueOf 2).length)) =
        some (.user, .user, some .blockedOnReceive, 1) := by decide +kernel
  obtain ⟨w, hw, hfacts⟩ := map_eq_some_iff.mp hrun
  simp only [Prod.mk.injEq] at hfacts
  obtain ⟨h1, h2, hstate, hqueue⟩ := hfacts
  have huser : ∀ t, w.pc t = .user := by
    intro t
    by_cases ht : t = 1 ∨ t = 2
    · rcases ht with rfl | rfl
      · exact h1
      · exact h2
    · exact Fine.pc_of_run hw (by simp [Move.task]; omega)
  refine ⟨w, FineReach.run .boot hw, huser, hstate, hqueue, fun hno => ?_⟩
  obtain ⟨t, ht⟩ := hno 2 hstate (fun hnil => by simp [hnil] at hqueue)
  rw [huser t] at ht
  exact ht

end Folkering.Ipc
