/-
  Who waits for whom.

  A task waits for a server while its state word says `BlockedOnSend(server)`, or `WaitingForReply` with the server in
  `blocked_on`.  The second half relies on the first word having been stamped: `Stamped`.  Every kernel function
  changes one task at a time, so what it does to the waiting tasks is said task by task:
    * `Task.Calms`     — the task waits for nobody new, and stays stamped;
    * `Task.KeepsExit` — it is exited after the change exactly when it was before;
    * `Sys.Along R`    — the same tasks exist in both systems, each `R`-related to itself.
  Then come the kernel's elementary changes; `Sys.block`, the one that makes a task wait, is treated by its users.
-/
import Folkering.Ipc.Replies

namespace Folkering.Ipc

open Option

/-! ## One task -/

/-- The state is one of waiting for a reply. -/
def TaskState.isWaiting : TaskState → Bool
  | .waitingForReply _ => true
  | _ => false

namespace Task

/-- The task is blocked in a request to `S`. -/
def WaitsFor (k : Task) (S : Nat) : Prop :=
  k.state = .blockedOnSend S ∨ k.state.isWaiting = true ∧ k.blockedOn = some S

/-- The server of a blocked send is on record. -/
def Stamped (k : Task) : Prop := ∀ S, k.state = .blockedOnSend S → k.blockedOn = some S

/-- The change makes no task wait that did not. -/
def Calms (k k' : Task) : Prop := k.Stamped → k'.Stamped ∧ ∀ S, k'.WaitsFor S → k.WaitsFor S

/-- The change neither ends nor revives the task. -/
def KeepsExit (k k' : Task) : Prop := k'.state = .exited ↔ k.state = .exited

/-- Both at once. -/
def Settles (k k' : Task) : Prop := k.Calms k' ∧ k.KeepsExit k'

theorem Settles.refl (k : Task) : k.Settles k := ⟨fun h => ⟨h, fun _ hw => hw⟩, Iff.rfl⟩

/-- The fields that matter did not change. -/
theorem settles_of_same {k k' : Task} (hs : k'.state = k.state) (hb : k'.blockedOn = k.blockedOn) : k.Settles k' := by
  unfold Settles Calms KeepsExit Stamped WaitsFor
  rw [hs, hb]
  exact ⟨fun h => ⟨h, fun _ hw => hw⟩, Iff.rfl⟩

/-- A task that neither was exited nor is, and now waits for nobody. -/
theorem settles_of_free {k k' : Task} (h : k.state ≠ .exited) (hs : k'.state = .runnable ∨ k'.state = .blockedOnReceive) :
    k.Settles k' := by
  unfold Settles Calms KeepsExit Stamped WaitsFor
  rcases hs with hs | hs <;> simp [hs, h, TaskState.isWaiting]

theorem calms_of_free {k k' : Task} (hs : k'.state = .runnable ∨ k'.state = .blockedOnReceive) : k.Calms k' := by
  unfold Calms Stamped WaitsFor
  rcases hs with hs | hs <;> simp [hs, TaskState.isWaiting]

end Task

/-- A blocking send or a receive. -/
def Act.blocks : Act → Bool
  | .send _ _ _ _ _ | .receive _ => true
  | _ => false

/-! ## All tasks -/

namespace Sys

/-- The same tasks exist in both systems, each related to itself in the other. -/
def Along (R : Task → Task → Prop) (s s' : Sys) : Prop := ∀ u, Option.Rel R (s.tasks u) (s'.tasks u)

variable {R : Task → Task → Prop} {s s' s'' : Sys}

/-- Every task afterwards was there before. -/
theorem Along.back (h : s.Along R s') {u : Nat} {k' : Task} (hk' : s'.tasks u = some k') :
    ∃ k, s.tasks u = some k ∧ R k k' := by
  have hu := h u
  rw [hk'] at hu
  generalize hk : s.tasks u = o at hu
  cases hu with
  | some hr => exact ⟨_, rfl, hr⟩

theorem Along.isSome_eq (h : s.Along R s') (u : Nat) : (s'.tasks u).isSome = (s.tasks u).isSome := by
  have hu := h u
  generalize s.tasks u = o at hu ⊢
  generalize s'.tasks u = o' at hu ⊢
  cases hu <;> rfl

theorem Along.mono {R' : Task → Task → Prop} (h : s.Along R s') (hR : ∀ k k', R k k' → R' k k') : s.Along R' s' := by
  intro u
  have hu := h u
  generalize s.tasks u = o at hu ⊢
  generalize s'.tasks u = o' at hu ⊢
  cases hu with
  | some hr => exact .some (hR _ _ hr)
  | none => exact .none

theorem Along.trans (hR : ∀ {a b c}, R a b → R b c → R a c) (h : s.Along R s') (h' : s'.Along R s'') :
    s.Along R s'' := by
  intro u
  have hu := h u
  have hu' := h' u
  generalize s.tasks u = o at hu ⊢
  generalize s'.tasks u = o' at hu hu'
  generalize s''.tasks u = o'' at hu' ⊢
  cases hu with
  | some hr =>
    cases hu' with
    | some hr' => exact .some (hR hr hr')
  | none =>
    cases hu' with
    | none => exact .none

theorem Along.refl (hrefl : ∀ k, R k k) (s : Sys) : s.Along R s := by
  intro u
  cases s.tasks u with
  | none => exact .none
  | some k => exact .some (hrefl k)

theorem along_update {t : Nat} {f : Task → Task} (hrefl : ∀ k, R k k)
    (hf : ∀ k, s.tasks t = some k → R k (f k)) : s.Along R (s.update t f) := by
  intro u
  by_cases hu : u = t
  · subst hu
    simp only [update, Function.update_self]
    cases hk : s.tasks u with
    | none => exact .none
    | some k => exact .some (hf k hk)
  · simp only [update, Function.update_of_ne hu]
    exact Along.refl hrefl s u

end Sys

theorem Task.Calms.trans {a b c : Task} (h : a.Calms b) (h' : b.Calms c) : a.Calms c := by
  intro ha
  obtain ⟨hb, hw⟩ := h ha
  obtain ⟨hc, hw'⟩ := h' hb
  exact ⟨hc, fun S hS => hw S (hw' S hS)⟩

theorem Task.Settles.trans {a b c : Task} (h : a.Settles b) (h' : b.Settles c) : a.Settles c :=
  ⟨h.1.trans h'.1, h'.2.trans h.2⟩

namespace Sys

variable {s : Sys}

/-- No task waits for anybody new. -/
abbrev Calmer (s s' : Sys) : Prop := s.Along Task.Calms s'

/-- And none exits or comes back. -/
abbrev Settled (s s' : Sys) : Prop := s.Along Task.Settles s'

theorem Settled.calmer {s' : Sys} (h : s.Settled s') : s.Calmer s' := h.mono fun _ _ hk => hk.1

theorem Settled.trans {s' s'' : Sys} (h : s.Settled s') (h' : s'.Settled s'') : s.Settled s'' :=
  Along.trans Task.Settles.trans h h'

theorem Settled.refl (s : Sys) : s.Settled s := Along.refl .refl s

theorem settled_update {t : Nat} {f : Task → Task} (hf : ∀ k, s.tasks t = some k → k.Settles (f k)) :
    s.Settled (s.update t f) := along_update .refl hf

/-! ## The elementary changes -/

theorem settled_tick : s.Settled s.tick := Settled.refl s

theorem settled_setQueue (t : Nat) (q : MessageQueue) : s.Settled (s.setQueue t q) :=
  settled_update fun _ _ => Task.settles_of_same rfl rfl

theorem settled_keepMessage (t : Nat) (msg : Message) : s.Settled (s.keepMessage t msg) :=
  settled_update fun _ _ => Task.settles_of_same rfl rfl

theorem settled_popMessage {t : Nat} {msg : Message} {s' : Sys} (h : s.popMessage t = some (msg, s')) :
    s.Settled s' := by
  obtain ⟨task, q, -, -, rfl⟩ := popMessage_some h
  exact settled_setQueue t q

theorem settled_wakeReceiver (t : Nat) : s.Settled (s.wakeReceiver t) := by
  refine settled_update fun k _ => ?_
  split
  · next hs => exact Task.settles_of_free (by simp [hs]) (.inl rfl)
  · exact .refl k

/-- The state word of a blocked sender changes, its stamp says who it waits for. -/
theorem settled_markWaiting (t : Nat) (msg : Message) : s.Settled (s.markWaiting t msg) := by
  unfold markWaiting
  split
  · refine settled_update fun k _ => ?_
    split
    · next hs =>
      refine ⟨fun hst => ⟨by simp [Task.Stamped], fun S hw => ?_⟩, by simp [Task.KeepsExit, hs]⟩
      have hstamp := hst t hs
      simp only [Task.WaitsFor, TaskState.isWaiting, hstamp] at hw ⊢
      simp only [reduceCtorEq, true_and, false_or, some.injEq] at hw
      exact .inl (hw ▸ hs)
    · exact .refl k
  · exact Settled.refl s

/-- A reply frees its sender, which is not an exited task. -/
theorem settled_deliver {t sender : Nat} {task : Task} (payload : List Nat) (hk : s.tasks sender = some task)
    (hlive : task.state ≠ .exited) : s.Settled (s.deliver t sender payload) := by
  refine settled_tick.trans (settled_update fun k hk' => ?_)
  cases hk.symm.trans hk'
  exact Task.settles_of_free hlive (.inl rfl)

theorem settled_ipcReply (t : Nat) (request : Message) (payload : List Nat) :
    s.Settled (s.ipcReply t request payload).2 := by
  rcases s.ipcReply_cases t request payload with ⟨e, h⟩ | ⟨task, hk, hs, h⟩
  · rw [h]
    exact Settled.refl s
  · rw [h]
    exact settled_deliver payload hk (by simp [hs])

theorem settled_ipcReplyWithToken (t token : Nat) (payload : List Nat) :
    s.Settled (s.ipcReplyWithToken t token payload).2 := by
  rcases s.ipcReplyWithToken_cases t token payload with ⟨e, h⟩ | ⟨pid, id, task, -, hk, hs, h⟩
  · rw [h]
    exact Settled.refl s
  · rw [h]
    exact settled_deliver payload hk (by simp [hs])

/-- Queueing a message settles. -/
theorem settled_enqueue (t target : Nat) (msgType : IpcType) (payload : List Nat) (permitted transferred : Bool) :
    s.Settled (s.enqueue t target msgType payload permitted transferred).2 := by
  rcases s.enqueue_cases t target msgType payload permitted transferred with
    ⟨e, s', he, rfl | rfl⟩ | ⟨task, q, -, -, he⟩
  · rw [he]
    exact Settled.refl _
  · rw [he]
    exact settled_tick
  · rw [he]
    exact settled_tick.trans (settled_setQueue target q)

/-- **An act other than a blocking send or a receive.** -/
theorem settled_sysAfter {a : Act} (h : a.blocks = false) : s.Settled (a.sysAfter s) := by
  cases a with
  | send | receive => cases h
  | sendAsync t target payload permitted transferred =>
    have henq := settled_enqueue (s := s) t target .notification payload permitted transferred
    rw [Act.sysAfter, ipcSendAsync]
    split
    · next heq => rwa [heq] at henq
    · next heq =>
      rw [heq] at henq
      exact henq.trans (settled_wakeReceiver target)
  | recvAsync t =>
    rw [Act.sysAfter, ipcRecvAsync]
    split
    · next hpop => exact ((settled_popMessage hpop).trans (settled_markWaiting t _)).trans (settled_keepMessage t _)
    · exact Settled.refl s
  | reply t payload =>
    rw [Act.sysAfter]
    split
    · exact Settled.refl s
    · exact settled_ipcReply t _ payload
  | replyToken t token payload => exact settled_ipcReplyWithToken t token payload
  | yieldReturns | resume => exact settled_update fun _ _ => Task.settles_of_same rfl rfl

/-! ## What it means for the system -/

/-- The task waits for `S`. -/
def WaitsFor (s : Sys) (t S : Nat) : Prop := ∃ k, s.tasks t = some k ∧ k.WaitsFor S

/-- Every task blocked on a send carries its target. -/
def Stamped (s : Sys) : Prop := ∀ t k, s.tasks t = some k → k.Stamped

theorem Calmer.stamped {s' : Sys} (h : s.Calmer s') (hs : s.Stamped) : s'.Stamped := by
  intro t k' hk'
  obtain ⟨k, hk, hc⟩ := h.back hk'
  exact (hc (hs t k hk)).1

theorem Calmer.waitsFor {s' : Sys} (h : s.Calmer s') (hs : s.Stamped) {t S : Nat} (hw : s'.WaitsFor t S) :
    s.WaitsFor t S := by
  obtain ⟨k', hk', hw⟩ := hw
  obtain ⟨k, hk, hc⟩ := h.back hk'
  exact ⟨k, hk, (hc (hs t k hk)).2 S hw⟩

/-- A blocking send makes its sender wait for the target, and stamps it. -/
theorem stamped_block (hs : s.Stamped) (t target id : Nat) : (s.block t target id).Stamped := by
  intro u k' hk'
  rcases tasks_update hk' with ⟨-, hk⟩ | ⟨rfl, k, hk, rfl⟩
  · exact hs u k' hk
  · intro S hS
    cases hS
    rfl

/-- Only the sender begins to wait. -/
theorem waitsFor_block {t target id u S : Nat} (h : (s.block t target id).WaitsFor u S) :
    s.WaitsFor u S ∨ u = t ∧ S = target := by
  obtain ⟨k', hk', hw⟩ := h
  rcases tasks_update hk' with ⟨-, hk⟩ | ⟨rfl, k, hk, rfl⟩
  · exact .inl ⟨k', hk, hw⟩
  · rcases hw with hw | ⟨hw, -⟩
    · cases hw
      exact .inr ⟨rfl, rfl⟩
    · cases hw

end Sys

end Folkering.Ipc
