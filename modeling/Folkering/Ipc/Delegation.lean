/-
  Sends that carry a capability (kernel/src/ipc/send.rs with kernel/src/capability/mod.rs).

  `Ipc.Sys` leaves the capability side of a send to its caller; here the two come together.  A `Node` is the task
  table as IPC sees it and the capability kernel, and a send checks the sender's right, transfers the capability of
  the message and pushes the message, in this order.  The transfer is not undone when the push finds the queue full.
    * `enqueue_refines` — on the task table this is `Sys.enqueue`;
    * `transferCapability_ok_iff` — which transfers succeed, and that one always changes the table;
    * `failed_send_unchanged_iff` — the failing sends that leave capabilities and queues alone.
-/
import Folkering.Ipc.Replies
import Folkering.Capability.Authority

namespace Folkering.Ipc

open Capability (CapabilityTable CapabilityEntry CapabilityId TransferableCap isNonTransferable)

/-- The task table and the capabilities. -/
structure Node where
  sys : Sys
  caps : Capability.Kernel

/-! ## The sends -/

/-- Any refusal of the capability kernel is reported as `ECAPFAIL`. -/
def transferCapability (k : Capability.Kernel) (senderId targetId : Nat) (capId : CapabilityId) :
    Except Errno Capability.Kernel :=
  match TransferableCap.check k capId with
  | none => .error .ECAPFAIL
  | some cap =>
    match k.transfer senderId targetId cap with
    | .ok (_, k) => .ok k
    | .error _ => .error .ECAPFAIL

/-- The capability in the message is transferred if there is one. -/
def transferPresent (k : Capability.Kernel) (senderId targetId : Nat) :
    Option CapabilityId → Except Errno Capability.Kernel
  | none => .ok k
  | some capId => transferCapability k senderId targetId capId

namespace Node

/-- What both sends do up to the queue. -/
def enqueue (n : Node) (current target : Nat) (msgType : IpcType) (payload : List Nat) (cap : Option CapabilityId) :
    Except Errno Message × Node :=
  match n.sys.tasks target with
  | none => (.error .EINVAL, n)
  | some task =>
    if task.state = .exited then (.error .EDEAD, n)
    else if !n.caps.hasIpcSend current target then (.error .EPERM, n)
    else
      let msg := { sender := current, msgType, payload, msgId := n.sys.nextMessageId }
      match transferPresent n.caps current target cap with
      | .error e => (.error e, { n with sys := n.sys.tick })
      | .ok caps =>
        match task.recvQueue.push msg with
        | none => (.error .ENOBUFS, { sys := n.sys.tick, caps })
        | some q => (.ok msg, { sys := n.sys.tick.setQueue target q, caps })

/-- A send up to the point where the sender gives up the processor. -/
def ipcSend (n : Node) (current target : Nat) (payload : List Nat) (cap : Option CapabilityId) :
    Except Errno Message × Node :=
  match n.enqueue current target .request payload cap with
  | (.error e, n) => (.error e, n)
  | (.ok msg, n) => (.ok msg, { n with sys := (n.sys.block current target msg.msgId).wakeReceiver target })

/-- An asynchronous send that may hand on a capability. -/
def ipcSendAsync (n : Node) (current target : Nat) (payload : List Nat) (cap : Option CapabilityId) :
    Except Errno Message × Node :=
  match n.enqueue current target .notification payload cap with
  | (.error e, n) => (.error e, n)
  | (.ok msg, n) => (.ok msg, { n with sys := n.sys.wakeReceiver target })

/-- The transfer goes through. -/
def transfers (n : Node) (current target : Nat) (cap : Option CapabilityId) : Bool :=
  match transferPresent n.caps current target cap with
  | .ok _ => true
  | .error _ => false

end Node

theorem transferPresent_error {k : Capability.Kernel} {s t : Nat} {cap : Option CapabilityId} {e : Errno}
    (h : transferPresent k s t cap = .error e) : e = .ECAPFAIL := by
  cases cap with
  | none => cases h
  | some id =>
    simp only [transferPresent, transferCapability] at h
    split at h
    · cases h
      rfl
    · split at h
      · cases h
      · cases h
        rfl

/-- **On the task table the send is that of `Sys`**, with the answers of the capability kernel. -/
theorem enqueue_refines (n : Node) (current target : Nat) (msgType : IpcType) (payload : List Nat)
    (cap : Option CapabilityId) :
    ((n.enqueue current target msgType payload cap).1, (n.enqueue current target msgType payload cap).2.sys) =
      n.sys.enqueue current target msgType payload (n.caps.hasIpcSend current target)
        (n.transfers current target cap) := by
  unfold Node.enqueue Sys.enqueue Node.transfers
  cases n.sys.tasks target with
  | none => rfl
  | some task =>
    by_cases hexited : task.state = .exited
    · simp only [if_pos hexited]
    · simp only [if_neg hexited]
      cases n.caps.hasIpcSend current target with
      | false => rfl
      | true =>
        cases htr : transferPresent n.caps current target cap with
        | error e =>
          rw [transferPresent_error htr]
          rfl
        | ok caps =>
          simp only [Bool.not_true, Bool.false_eq_true, if_false]
          cases task.recvQueue.push ⟨current, msgType, payload, n.sys.nextMessageId⟩ <;> rfl

/-! ## Which transfers succeed -/

/-- The table can take one more entry: the search for a free slot starts only while `nextId` is in range. -/
def Room (t : CapabilityTable) : Prop :=
  ∃ h : t.nextId < Capability.maxCapabilities,
    t.entries ⟨t.nextId, h⟩ = none ∨ ∃ i : Fin Capability.maxCapabilities, i.val ≠ 0 ∧ t.entries i = none

/-- The sender holds the capability, it may be passed on, the target exists and the table has room. -/
def Passable (k : Capability.Kernel) (sender target : Nat) (capId : CapabilityId) : Prop :=
  (∃ held, k.tasks sender = some held ∧ capId ∈ held) ∧ (k.tasks target).isSome ∧
    (∃ entry, k.table.get capId = some entry ∧ isNonTransferable entry.capType = false) ∧ Room k.table

/-- A slot is filled, and it was empty before. -/
theorem allocate_fills {t t' : CapabilityTable} {entry : CapabilityEntry} {id : CapabilityId}
    (h : t.allocate entry = .ok (id, t')) : Room t ∧ t' ≠ t := by
  have hne : ∀ {i : Fin Capability.maxCapabilities}, t.entries i = none → t.fill i entry ≠ t := by
    intro i hi heq
    have hsome : (t.fill i entry).entries i = some entry := by simp [CapabilityTable.fill]
    rw [heq, hi] at hsome
    cases hsome
  unfold CapabilityTable.allocate at h
  split at h
  · next hlt =>
    split at h
    · cases hfree : t.firstFree with
      | none =>
        rw [hfree] at h
        cases h
      | some i =>
        rw [hfree] at h
        cases h
        have hi := List.find?_some hfree
        simp only [Bool.and_eq_true, decide_eq_true_eq, Option.isNone_iff_eq_none] at hi
        exact ⟨⟨hlt, .inr ⟨i, hi⟩⟩, hne hi.2⟩
    · next hfree =>
      cases h
      have hfree' : t.entries ⟨t.nextId, hlt⟩ = none := by simpa using hfree
      exact ⟨⟨hlt, .inl hfree'⟩, hne hfree'⟩
  · cases h

theorem allocate_of_room {t : CapabilityTable} (entry : CapabilityEntry) (h : Room t) :
    ∃ r, t.allocate entry = .ok r := by
  obtain ⟨hlt, hfree⟩ := h
  unfold CapabilityTable.allocate
  rw [dif_pos hlt]
  split
  · next hused =>
    rcases hfree with hfree | ⟨i, hi⟩
    · rw [hfree] at hused
      cases hused
    · cases hfind : t.firstFree with
      | none =>
        have hnone := List.find?_eq_none.mp hfind i (List.mem_finRange i)
        simp [hi.1, hi.2] at hnone
      | some j => exact ⟨_, rfl⟩
  · exact ⟨_, rfl⟩

/-- **The transfers that succeed, and that each changes the table.** -/
theorem transferCapability_ok_iff {k : Capability.Kernel} {sender target : Nat} {capId : CapabilityId} :
    (Passable k sender target capId ↔ ∃ k', transferCapability k sender target capId = .ok k') ∧
      ∀ k', transferCapability k sender target capId = .ok k' → k'.table ≠ k.table := by
  unfold transferCapability TransferableCap.check Passable Capability.Kernel.transfer Capability.Kernel.grant
  cases hget : k.table.get capId with
  | none => simp
  | some entry =>
    cases hty : isNonTransferable entry.capType with
    | true => simp [hty]
    | false =>
      cases hs : k.tasks sender with
      | none => simp [hty]
      | some held =>
        cases ht : k.tasks target with
        | none => simp [hty]
        | some ids =>
          by_cases hmem : capId ∈ held
          · -- both tasks exist and the sender holds the capability: what is left is the allocation
            simp only [Bool.false_eq_true, if_false, hget, hty, Option.some.injEq, exists_eq_left',
              hmem, Option.isSome_some, true_and]
            cases hal : k.table.allocate (.new entry.capType target) with
            | error e =>
              refine ⟨⟨fun hroom => ?_, fun ⟨k', hk'⟩ => by cases hk'⟩, fun k' hk' => by cases hk'⟩
              obtain ⟨r, hr⟩ := allocate_of_room (.new entry.capType target) hroom
              rw [hr] at hal
              cases hal
            | ok r =>
              obtain ⟨hroom, hne⟩ := allocate_fills hal
              refine ⟨⟨fun _ => ⟨_, rfl⟩, fun _ => hroom⟩, fun k' hk' => ?_⟩
              cases hk'
              exact hne
          · simp [hty, hmem]

/-! ## Failed sends -/

/-- Capability table, capability lists and queues are the same. -/
structure Unchanged (n n' : Node) : Prop where
  table : n'.caps.table = n.caps.table
  lists : n'.caps.tasks = n.caps.tasks
  queues : ∀ t, n'.sys.queueOf t = n.sys.queueOf t

/-- A permitted send of a capability that can be passed on, to a live task whose queue is full. -/
def Wasted (n : Node) (current target : Nat) (cap : Option CapabilityId) : Prop :=
  (∃ task, n.sys.tasks target = some task ∧ task.state ≠ .exited ∧ task.recvQueue.messages.length = 64) ∧
    n.caps.hasIpcSend current target = true ∧ ∃ capId, cap = some capId ∧ Passable n.caps current target capId

theorem push_eq_none_iff {q : MessageQueue} {msg : Message} : q.push msg = none ↔ q.messages.length = 64 := by
  have hle := q.bounded
  unfold MessageQueue.push
  split
  · next hlt =>
    refine ⟨fun h => (Option.some_ne_none _ h).elim, fun h => ?_⟩
    omega
  · next hge => exact ⟨fun _ => by omega, fun _ => rfl⟩

theorem unchanged_tick (n : Node) : Unchanged n { n with sys := n.sys.tick } := ⟨rfl, rfl, fun _ => rfl⟩

/-- One failing `enqueue`: each error exit against what was done before it. -/
theorem enqueue_unchanged_iff {n n' : Node} {current target : Nat} {msgType : IpcType} {payload : List Nat}
    {cap : Option CapabilityId} {e : Errno}
    (h : n.enqueue current target msgType payload cap = (.error e, n')) :
    Unchanged n n' ↔ ¬ Wasted n current target cap := by
  unfold Node.enqueue at h
  cases ht : n.sys.tasks target with
  | none =>
    rw [ht] at h
    cases h
    refine ⟨fun _ hw => ?_, fun _ => ⟨rfl, rfl, fun _ => rfl⟩⟩
    obtain ⟨⟨task, htask, -⟩, -⟩ := hw
    rw [ht] at htask
    cases htask
  | some task =>
    simp only [ht] at h
    by_cases hexited : task.state = .exited
    · rw [if_pos hexited] at h
      cases h
      refine ⟨fun _ hw => ?_, fun _ => ⟨rfl, rfl, fun _ => rfl⟩⟩
      obtain ⟨⟨task', htask, hlive, -⟩, -⟩ := hw
      rw [ht] at htask
      cases htask
      exact hlive hexited
    rw [if_neg hexited] at h
    cases hperm : n.caps.hasIpcSend current target with
    | false =>
      simp only [hperm, Bool.not_false, if_true] at h
      cases h
      refine ⟨fun _ hw => ?_, fun _ => ⟨rfl, rfl, fun _ => rfl⟩⟩
      rw [hw.2.1] at hperm
      cases hperm
    | true =>
      simp only [hperm, Bool.not_true, Bool.false_eq_true, if_false] at h
      cases htr : transferPresent n.caps current target cap with
      | error e' =>
        rw [htr] at h
        cases h
        refine ⟨fun _ hw => ?_, fun _ => unchanged_tick n⟩
        obtain ⟨-, -, capId, rfl, hpass⟩ := hw
        obtain ⟨k', hk'⟩ := transferCapability_ok_iff.1.mp hpass
        rw [transferPresent, hk'] at htr
        cases htr
      | ok caps =>
        simp only [htr] at h
        cases hpush : task.recvQueue.push ⟨current, msgType, payload, n.sys.nextMessageId⟩ with
        | some q =>
          rw [hpush] at h
          cases h
        | none =>
          -- the only exit after a transfer
          rw [hpush] at h
          cases h
          have hfull := push_eq_none_iff.mp hpush
          cases cap with
          | none =>
            cases htr
            refine ⟨fun _ hw => ?_, fun _ => unchanged_tick n⟩
            obtain ⟨-, -, capId, hcap, -⟩ := hw
            cases hcap
          | some capId =>
            refine ⟨fun hu => absurd hu.table (transferCapability_ok_iff.2 _ htr), fun hw => absurd ?_ hw⟩
            exact ⟨⟨task, ht, hexited, hfull⟩, hperm, capId, rfl, transferCapability_ok_iff.1.mpr ⟨_, htr⟩⟩

/-- **A failed send leaves capabilities and queues alone, unless it passed a capability to a task whose queue was
    full.** -/
theorem failed_send_unchanged_iff {n n' : Node} {current target : Nat} {payload : List Nat}
    {cap : Option CapabilityId} {e : Errno}
    (h : n.ipcSend current target payload cap = (.error e, n') ∨
      n.ipcSendAsync current target payload cap = (.error e, n')) :
    Unchanged n n' ↔ ¬ Wasted n current target cap := by
  rcases h with h | h
  · unfold Node.ipcSend at h
    split at h
    · next he =>
      cases h
      exact enqueue_unchanged_iff he
    · cases h
  · unfold Node.ipcSendAsync at h
    split at h
    · next he =>
      cases h
      exact enqueue_unchanged_iff he
    · cases h

/-- Task 1 may send to anyone and holds a resource (capability 2); task 2 has `waiting` messages. -/
def offering (waiting : Fin 65) : Node where
  sys :=
    { tasks := fun t =>
        if t = 1 then some .new
        else if t = 2 then some { Task.new with
          recvQueue := ⟨List.replicate waiting ⟨1, .notification, [], 0⟩, by rw [List.length_replicate]; omega⟩ }
        else none
      nextMessageId := 1 }
  caps := (Capability.Kernel.boot [1, 2]).run [.grant 1 .ipcSendAny, .grant 1 (.resource 7)]

/-- A send of a capability that the sender does not hold fails and changes nothing. -/
theorem failed_send_unchanged_unheld :
    ((offering 0).ipcSend 1 2 [] (some 3)).1.isOk = false ∧
      Unchanged (offering 0) ((offering 0).ipcSend 1 2 [] (some 3)).2 := by
  obtain ⟨e, he⟩ : ∃ e, ((offering 0).ipcSend 1 2 [] (some 3)).1 = .error e := ⟨.ECAPFAIL, by decide +kernel⟩
  refine ⟨by decide +kernel, (failed_send_unchanged_iff (e := e) (.inl (Prod.ext he rfl))).mpr ?_⟩
  rintro ⟨⟨task, htask, -, hfull⟩, -⟩
  cases htask
  cases hfull

/-- The queue of task 2 is full: the send fails with `ENOBUFS`, and task 2 has the capability. -/
theorem failed_send_passes_capability :
    ((offering 64).ipcSend 1 2 [] (some 2)).1.isOk = false ∧
      ((offering 64).ipcSend 1 2 [] (some 2)).2.caps.tasks 2 = some [3] ∧
      ¬ Unchanged (offering 64) ((offering 64).ipcSend 1 2 [] (some 2)).2 := by
  have hlist : ((offering 64).ipcSend 1 2 [] (some 2)).2.caps.tasks 2 = some [3] := by decide +kernel
  refine ⟨by decide +kernel, hlist, fun h => ?_⟩
  rw [h.lists] at hlist
  revert hlist
  decide +kernel

end Folkering.Ipc
