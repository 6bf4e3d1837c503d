/-
  The four asynchronous TCP slots and the tasks that use them.

  `connect` gives a slot an owner; `send`, `poll_recv` and `close` take a slot number from the caller and do
  NOT look at the owner.  The network stack (smoltcp) is a parameter: a socket is whatever `SocketApi` says,
  with the documented behaviour of its two transfer functions as fields.  A slot's handle is modelled by the
  socket it stands for, since a handle is given to one slot and is dropped when the socket is removed.

  The poll of the interface that a call starts with belongs to the network, not to the caller: it is an event
  of its own, so that a call is judged by what it does itself.
    * `Isolated`     — the call leaves every slot of another task, and its socket, as they were;
    * `Harmless`     — the call is a connect, or its slot is the caller's own or free, or it finds nothing to
      transfer and nothing to promote;
    * `isolated_iff` — these are the same, for every state and every call.
-/
import Mathlib

namespace Folkering.TcpSlots

open Function

/-! ## Sockets -/

/-- What the calls use of a TCP socket. -/
structure SocketApi (σ : Type) where
  remoteEndpoint : σ → Option (Nat × Nat)
  maySend : σ → Bool
  canSend : σ → Bool
  mayRecv : σ → Bool
  canRecv : σ → Bool
  isActive : σ → Bool
  /-- the number of bytes taken, nothing on an error -/
  sendSlice : σ → List UInt8 → Option Nat × σ
  recvSlice : σ → Nat → Option Nat × σ
  /-- a new socket that connects to an address and a port -/
  connect : Nat → Nat → Option σ
  sendSlice_nil : ∀ socket, (sendSlice socket []).2 = socket
  /-- a socket that can send takes some of the data -/
  sendSlice_ne : ∀ socket data, canSend socket = true → data ≠ [] → (sendSlice socket data).2 ≠ socket
  recvSlice_zero : ∀ socket, (recvSlice socket 0).2 = socket
  /-- a socket that can receive gives up some of its data -/
  recvSlice_ne : ∀ socket n, canRecv socket = true → 0 < n → (recvSlice socket n).2 ≠ socket

/-- The states of a slot. -/
inductive SlotState where
  | free
  | connecting
  | connected
deriving Repr, DecidableEq

/-- One connection of one task. -/
structure AsyncSlot (σ : Type) where
  state : SlotState
  socket : Option σ
  /-- 0 is nobody -/
  owner : Nat
  connectingSinceMs : Nat
deriving DecidableEq

/-- The number of slots. -/
abbrev maxAsyncSlots : Nat := 4

/-- All slots. -/
abbrev Slots (σ : Type) := Fin maxAsyncSlots → AsyncSlot σ

/-- No connection. -/
def Slots.empty {σ : Type} : Slots σ :=
  fun _ => { state := .free, socket := none, owner := 0, connectingSinceMs := 0 }

/-- Try again later. -/
def eagain : Nat := 0xFFFFFFFE
/-- The error value of the calls. -/
def u64Max : Nat := 2 ^ 64 - 1

section

variable {σ : Type} (api : SocketApi σ)

/-! ## The calls -/

/-- A slot of the task with a socket to the target. -/
def targets (slot : AsyncSlot σ) (task ip port : Nat) : Bool :=
  slot.owner == task && slot.state != .free &&
    slot.socket.any fun socket => api.remoteEndpoint socket == some (ip, port)

/-- A slot whose connection has ended. -/
def AsyncSlot.release (slot : AsyncSlot σ) : AsyncSlot σ :=
  { slot with state := .free, socket := none, connectingSinceMs := 0 }

/-- The connection is established. -/
def AsyncSlot.promote (slot : AsyncSlot σ) : AsyncSlot σ :=
  { slot with state := .connected, connectingSinceMs := 0 }

/-- Drives a slot that the task already has for the target. -/
def repoll (slots : Slots σ) (i : Fin maxAsyncSlots) : Nat × Slots σ :=
  match (slots i).socket with
  | none => (eagain, slots)
  | some socket =>
    if api.maySend socket then (i.val, update slots i (slots i).promote)
    else if !api.isActive socket then (u64Max, update slots i (slots i).release)
    else (eagain, slots)

/-- Starts a connection in the first free slot. -/
def allocate (slots : Slots σ) (task ip port nowMs : Nat) : Nat × Slots σ :=
  match (List.finRange maxAsyncSlots).find? fun i => (slots i).state == .free with
  | none => (u64Max, slots)
  | some i =>
    match api.connect ip port with
    | none => (u64Max, slots)
    | some socket =>
      (i.val, update slots i
        { state := .connecting, socket := some socket, owner := task, connectingSinceMs := nowMs })

/-- `syscall_tcp_connect`; `hasIp` is whether the network is up. -/
def tcpConnect (slots : Slots σ) (task ip port nowMs : Nat) (hasIp : Bool) : Nat × Slots σ :=
  if !hasIp then (u64Max, slots)
  else match (List.finRange maxAsyncSlots).find? fun i => targets api (slots i) task ip port with
    | some i => repoll api slots i
    | none => allocate api slots task ip port nowMs

/-- A pointer that is not null, a length of at most 1 MiB and no wrap-around. -/
def validateUserPtr (ptr len : Nat) : Bool := ptr != 0 && len ≤ 1024 * 1024 && ptr + len < 2 ^ 64

/-- Send on a slot that is connected, if its buffer has room. -/
def sendConnected (slots : Slots σ) (i : Fin maxAsyncSlots) (data : List UInt8) : Nat × Slots σ :=
  match (slots i).state, (slots i).socket with
  | .connected, some socket =>
    if !api.canSend socket then (eagain, slots)
    else
      let r := api.sendSlice socket data
      (r.1.getD u64Max, update slots i { slots i with socket := some r.2 })
  | _, _ => (u64Max, slots)

/-- A send on a slot: a finished handshake is promoted and a failed one given up first. -/
def sendOn (slots : Slots σ) (i : Fin maxAsyncSlots) (data : List UInt8) : Nat × Slots σ :=
  match (slots i).state, (slots i).socket with
  | .connecting, some socket =>
    if api.maySend socket then sendConnected api (update slots i (slots i).promote) i data
    else if !api.isActive socket then (u64Max, update slots i (slots i).release)
    else (eagain, slots)
  | _, _ => sendConnected api slots i data

/-- `syscall_tcp_send` of the bytes at a pointer. -/
def tcpSend (slots : Slots σ) (slotId dataPtr : Nat) (data : List UInt8) : Nat × Slots σ :=
  if h : slotId < maxAsyncSlots then
    if 0 < data.length && !validateUserPtr dataPtr data.length then (u64Max, slots)
    else sendOn api slots ⟨slotId, h⟩ data
  else (u64Max, slots)

/-- A receive on a slot. -/
def recvOn (slots : Slots σ) (i : Fin maxAsyncSlots) (bufMax : Nat) : Nat × Slots σ :=
  match (slots i).state, (slots i).socket with
  | .connected, some socket =>
    if api.canRecv socket then
      let r := api.recvSlice socket bufMax
      (r.1.getD u64Max, update slots i { slots i with socket := some r.2 })
    else if !api.mayRecv socket then (0, slots)
    else (eagain, slots)
  | _, _ => (u64Max, slots)

/-- `syscall_tcp_poll_recv` into a buffer. -/
def tcpPollRecv (slots : Slots σ) (slotId bufPtr bufMax : Nat) : Nat × Slots σ :=
  if h : slotId < maxAsyncSlots then
    if 0 < bufMax && !validateUserPtr bufPtr bufMax then (u64Max, slots)
    else recvOn api slots ⟨slotId, h⟩ bufMax
  else (u64Max, slots)

/-- `syscall_tcp_close`. -/
def tcpClose (slots : Slots σ) (slotId : Nat) : Nat × Slots σ :=
  if h : slotId < maxAsyncSlots then
    (0, update slots ⟨slotId, h⟩ { slots ⟨slotId, h⟩ with socket := none, state := .free, owner := 0 })
  else (u64Max, slots)

/-! ## Events -/

/-- The calls on slots. -/
inductive Call where
  | connect (ip port nowMs : Nat) (hasIp : Bool)
  | send (slotId dataPtr : Nat) (data : List UInt8)
  | pollRecv (slotId bufPtr bufMax : Nat)
  | close (slotId : Nat)
  /-- the network state is locked by somebody else, or there is none -/
  | refused (locked : Bool)
deriving Repr, DecidableEq

/-- A call by a task: the value and the slots after it. -/
def perform (slots : Slots σ) (task : Nat) : Call → Nat × Slots σ
  | .connect ip port nowMs hasIp => tcpConnect api slots task ip port nowMs hasIp
  | .send slotId dataPtr data => tcpSend api slots slotId dataPtr data
  | .pollRecv slotId bufPtr bufMax => tcpPollRecv api slots slotId bufPtr bufMax
  | .close slotId => tcpClose slots slotId
  | .refused locked => (if locked then eagain else u64Max, slots)

/-- What happens to the slots. -/
inductive Event (σ : Type) where
  /-- the network stack moves data and changes socket states -/
  | poll (f : Fin maxAsyncSlots → σ → σ)
  | call (task : Nat) (c : Call)

/-- The sockets after the network stack has run. -/
def Slots.polled (slots : Slots σ) (f : Fin maxAsyncSlots → σ → σ) : Slots σ :=
  fun i => { slots i with socket := (slots i).socket.map (f i) }

/-- One event. -/
def step (slots : Slots σ) : Event σ → Slots σ
  | .poll f => slots.polled f
  | .call task c => (perform api slots task c).2

/-! ## Isolation -/

/-- The slot is in use by another task. -/
def Foreign (slots : Slots σ) (task : Nat) (i : Fin maxAsyncSlots) : Prop :=
  (slots i).state ≠ .free ∧ (slots i).owner ≠ task

/-- The call leaves every slot of another task as it was, with its socket. -/
def Isolated (slots : Slots σ) (task : Nat) (c : Call) : Prop :=
  ∀ i, Foreign slots task i → (perform api slots task c).2 i = slots i

/-- A send on the slot would change it: there is a handshake to promote or to give up, or data to transmit. -/
def SendActs (slot : AsyncSlot σ) (data : List UInt8) : Prop :=
  (∃ socket, slot.state = .connecting ∧ slot.socket = some socket ∧
    (api.maySend socket = true ∨ api.isActive socket = false)) ∨
  ∃ socket, slot.state = .connected ∧ slot.socket = some socket ∧ api.canSend socket = true ∧ data ≠ []

/-- A receive on the slot would take data out of its socket. -/
def RecvActs (slot : AsyncSlot σ) (bufMax : Nat) : Prop :=
  ∃ socket, slot.state = .connected ∧ slot.socket = some socket ∧ api.canRecv socket = true ∧ 0 < bufMax

/-- The call does nothing to a slot of another task. -/
def Harmless (slots : Slots σ) (task : Nat) : Call → Prop
  | .connect _ _ _ _ => True
  | .send slotId dataPtr data => ∀ h : slotId < maxAsyncSlots, Foreign slots task ⟨slotId, h⟩ →
      (data ≠ [] → validateUserPtr dataPtr data.length = true) → ¬ SendActs api (slots ⟨slotId, h⟩) data
  | .pollRecv slotId bufPtr bufMax => ∀ h : slotId < maxAsyncSlots, Foreign slots task ⟨slotId, h⟩ →
      validateUserPtr bufPtr bufMax = true → ¬ RecvActs api (slots ⟨slotId, h⟩) bufMax
  | .close slotId => ∀ h : slotId < maxAsyncSlots, ¬ Foreign slots task ⟨slotId, h⟩
  | .refused _ => True

end

section

variable {σ : Type} {api : SocketApi σ} {slots : Slots σ} {task : Nat}

variable {c : Call}

/-- A call that changes one slot at most is isolated iff that slot is not foreign or stays as it is. -/
theorem isolated_of_update (i : Fin maxAsyncSlots) (slot : AsyncSlot σ)
    (h : (perform api slots task c).2 = update slots i slot) :
    Isolated api slots task c ↔ (Foreign slots task i → slot = slots i) := by
  constructor
  · intro hi hf
    have heq := hi i hf
    rwa [h, update_self] at heq
  · intro hslot j hf
    rw [h]
    by_cases hj : j = i
    · subst hj
      rw [update_self]
      exact hslot hf
    · rw [update_of_ne hj]

theorem isolated_of_same (h : (perform api slots task c).2 = slots) : Isolated api slots task c := by
  intro i _
  rw [h]

/-- A slot that is driven changes alone. -/
theorem repoll_update (api : SocketApi σ) (slots : Slots σ) (i : Fin maxAsyncSlots) :
    ∃ slot, (repoll api slots i).2 = update slots i slot := by
  have hsame : slots = update slots i (slots i) := (update_eq_self i slots).symm
  unfold repoll
  split
  · exact ⟨_, hsame⟩
  · split
    · exact ⟨_, rfl⟩
    · split
      · exact ⟨_, rfl⟩
      · exact ⟨_, hsame⟩

/-- **A connect touches the caller's own slots and free ones only.** -/
theorem isolated_connect (ip port nowMs : Nat) (hasIp : Bool) :
    Isolated api slots task (.connect ip port nowMs hasIp) := by
  cases hasIp with
  | false => exact isolated_of_same rfl
  | true =>
    cases hfind : (List.finRange maxAsyncSlots).find? fun i => targets api (slots i) task ip port with
    | some i =>
      -- the slot that was found is the caller's
      have hown : ¬ Foreign slots task i := by
        have htargets := List.find?_some hfind
        simp only [targets, Bool.and_eq_true, beq_iff_eq] at htargets
        rintro ⟨_, hne⟩
        exact hne htargets.1.1
      have hperform : perform api slots task (.connect ip port nowMs true) = repoll api slots i := by
        simp only [perform, tcpConnect, hfind]
        rfl
      obtain ⟨slot, hslot⟩ := repoll_update api slots i
      exact (isolated_of_update i slot (hperform ▸ hslot)).mpr fun hf => absurd hf hown
    | none =>
      have hperform : perform api slots task (.connect ip port nowMs true) =
          allocate api slots task ip port nowMs := by
        simp only [perform, tcpConnect, hfind]
        rfl
      cases hfree : (List.finRange maxAsyncSlots).find? fun i => (slots i).state == .free with
      | none =>
        refine isolated_of_same ?_
        rw [hperform, allocate, hfree]
      | some i =>
        have hown : ¬ Foreign slots task i := by
          have hstate := List.find?_some hfree
          rintro ⟨hne, _⟩
          exact hne (by simpa using hstate)
        cases hconnect : api.connect ip port with
        | none =>
          refine isolated_of_same ?_
          rw [hperform, allocate, hfree]
          simp only [hconnect]
        | some socket =>
          refine (isolated_of_update i ⟨.connecting, some socket, task, nowMs⟩ ?_).mpr fun hf => absurd hf hown
          rw [hperform, allocate, hfree]
          simp only [hconnect]

variable {i : Fin maxAsyncSlots}

/-- A slot that changes its state is changed. -/
theorem not_isolated_of_state {slot : AsyncSlot σ}
    (h : (perform api slots task c).2 = update slots i slot) (hne : slot.state ≠ (slots i).state) :
    Isolated api slots task c ↔ ¬ Foreign slots task i := by
  rw [isolated_of_update i slot h]
  constructor
  · intro hslot hf
    exact hne (congrArg AsyncSlot.state (hslot hf))
  · intro hnot hf
    exact absurd hf hnot

/-- A connected socket that is ready for the operation, or none. -/
theorem ready_or_idle (slot : AsyncSlot σ) (ready : σ → Bool) :
    (∃ socket, slot.state = .connected ∧ slot.socket = some socket ∧ ready socket = true) ∨
      ∀ socket, slot.state = .connected → slot.socket = some socket → ready socket = false := by
  by_cases h : ∃ socket, slot.state = .connected ∧ slot.socket = some socket ∧ ready socket = true
  · exact Or.inl h
  · refine Or.inr fun socket hconn hsocket => Bool.eq_false_iff.mpr fun hready => ?_
    exact h ⟨socket, hconn, hsocket, hready⟩

/-- A transfer on a connected socket that is ready for it: the socket changes exactly when there is something to
    transfer. -/
theorem isolated_transfer (ready : σ → Bool) (next : σ → σ) {Data : Prop}
    (hnext : ∀ socket, ready socket = true → (next socket ≠ socket ↔ Data))
    (hacts : ∀ socket, (slots i).state = .connected → (slots i).socket = some socket → ready socket = true →
      (perform api slots task c).2 = update slots i { slots i with socket := some (next socket) })
    (hidle : (∀ socket, (slots i).state = .connected → (slots i).socket = some socket → ready socket = false) →
      (perform api slots task c).2 = slots) :
    Isolated api slots task c ↔ (Foreign slots task i →
      ¬ ∃ socket, (slots i).state = .connected ∧ (slots i).socket = some socket ∧ ready socket = true ∧ Data) := by
  obtain ⟨socket, hconn, hsocket, hready⟩ | hnone := ready_or_idle (slots i) ready
  · rw [isolated_of_update i _ (hacts socket hconn hsocket hready)]
    refine forall_congr' fun _ => ?_
    constructor
    · rintro heq ⟨socket', -, hs, -, hdata⟩
      have hsame := congrArg AsyncSlot.socket heq
      rw [hsocket] at hsame
      exact (hnext socket hready).mpr hdata (Option.some.inj hsame)
    · intro hnot
      have hsame : next socket = socket := by
        by_contra hne
        exact hnot ⟨socket, hconn, hsocket, hready, (hnext socket hready).mp hne⟩
      rw [hsame, ← hsocket]
  · refine iff_of_true (isolated_of_same (hidle hnone)) ?_
    rintro - ⟨socket, hconn, hs, hready, -⟩
    rw [hnone socket hconn hs] at hready
    cases hready

/-- A send on a slot without a handshake in progress. -/
theorem isolated_sendConnected {data : List UInt8} (hc : perform api slots task c = sendConnected api slots i data)
    (hshake : (slots i).state = .connecting → (slots i).socket = none) :
    Isolated api slots task c ↔ (Foreign slots task i → ¬ SendActs api (slots i) data) := by
  have hnone : ¬ ∃ socket, (slots i).state = .connecting ∧ (slots i).socket = some socket ∧
      (api.maySend socket = true ∨ api.isActive socket = false) := by
    rintro ⟨socket, hstate, hs, -⟩
    rw [hshake hstate] at hs
    cases hs
  rw [SendActs, or_iff_right hnone]
  refine isolated_transfer api.canSend (fun socket => (api.sendSlice socket data).2) (fun socket hcan => ?_)
    (fun socket hconn hsocket hcan => ?_) fun hcannot => ?_
  · refine ⟨?_, api.sendSlice_ne socket data hcan⟩
    rintro hne rfl
    exact hne (api.sendSlice_nil socket)
  · rw [hc, sendConnected, hconn, hsocket]
    simp [hcan]
  · rw [hc, sendConnected]
    split
    · next socket hconn hsocket => simp [hcannot socket hconn hsocket]
    · rfl

/-- A send on a promoted slot leaves it connected. -/
theorem sendConnected_promoted (api : SocketApi σ) (slots : Slots σ) (i : Fin maxAsyncSlots) (data : List UInt8) :
    ∃ slot : AsyncSlot σ, slot.state = .connected ∧
      (sendConnected api (update slots i (slots i).promote) i data).2 = update slots i slot := by
  unfold sendConnected
  split
  · split
    · exact ⟨(slots i).promote, rfl, rfl⟩
    · refine ⟨_, ?_, update_idem _ _ _⟩
      rw [update_self]
      rfl
  · exact ⟨(slots i).promote, rfl, rfl⟩

theorem isolated_sendOn {data : List UInt8} (hc : perform api slots task c = sendOn api slots i data) :
    Isolated api slots task c ↔ (Foreign slots task i → ¬ SendActs api (slots i) data) := by
  by_cases hshake : (slots i).state = .connecting → (slots i).socket = none
  · refine isolated_sendConnected ?_ hshake
    rw [hc, sendOn]
    split
    · next hstate hsocket =>
      rw [hshake hstate] at hsocket
      cases hsocket
    · rfl
  · obtain ⟨hstate, hsome⟩ := Classical.not_imp.mp hshake
    obtain ⟨socket, hsocket⟩ := Option.ne_none_iff_exists'.mp hsome
    have hon : sendOn api slots i data = if api.maySend socket then
        sendConnected api (update slots i (slots i).promote) i data
        else if !api.isActive socket then (u64Max, update slots i (slots i).release)
        else (eagain, slots) := by
      rw [sendOn, hstate, hsocket]
    rw [hon] at hc
    by_cases hmay : api.maySend socket = true
    · -- the handshake is finished: the slot becomes connected
      rw [if_pos hmay] at hc
      obtain ⟨slot, hslot, hslots⟩ := sendConnected_promoted api slots i data
      rw [not_isolated_of_state (hc ▸ hslots) (by rw [hslot, hstate]; decide)]
      exact forall_congr' fun _ => ⟨fun h => h.elim, fun h => h (Or.inl ⟨socket, hstate, hsocket, Or.inl hmay⟩)⟩
    · rw [if_neg hmay] at hc
      by_cases hactive : api.isActive socket = true
      · refine iff_of_true (isolated_of_same ?_) ?_
        · rw [hc]
          simp [hactive]
        · rintro _ (⟨socket', _, hs, hacts⟩ | ⟨_, hconn, _⟩)
          · obtain rfl : socket = socket' := Option.some.inj (hsocket.symm.trans hs)
            rcases hacts with h | h
            · exact hmay h
            · rw [hactive] at h
              cases h
          · rw [hstate] at hconn
            cases hconn
      · -- the handshake has failed: the slot is given up
        have hfailed := Bool.eq_false_iff.mpr hactive
        have hslots : (perform api slots task c).2 = update slots i (slots i).release := by
          rw [hc, hfailed]
          rfl
        rw [not_isolated_of_state hslots (by rw [hstate]; exact (by decide : SlotState.free ≠ .connecting))]
        exact forall_congr' fun _ =>
          ⟨fun h => h.elim, fun h => h (Or.inl ⟨socket, hstate, hsocket, Or.inr hfailed⟩)⟩

theorem isolated_send_iff (slotId dataPtr : Nat) (data : List UInt8) :
    Isolated api slots task (.send slotId dataPtr data) ↔ Harmless api slots task (.send slotId dataPtr data) := by
  by_cases hid : slotId < maxAsyncSlots
  swap
  · refine iff_of_true (isolated_of_same ?_) fun h => absurd h hid
    simp only [perform, tcpSend, dif_neg hid]
  by_cases hptr : data ≠ [] → validateUserPtr dataPtr data.length = true
  · have hpass : ¬ (decide (0 < data.length) && !validateUserPtr dataPtr data.length) = true := by
      intro hrefused
      simp only [Bool.and_eq_true, decide_eq_true_eq, Bool.not_eq_true'] at hrefused
      rw [hptr (List.length_pos_iff.mp hrefused.1)] at hrefused
      cases hrefused.2
    have hperform : perform api slots task (.send slotId dataPtr data) = sendOn api slots ⟨slotId, hid⟩ data := by
      simp only [perform, tcpSend, dif_pos hid, if_neg hpass]
    rw [isolated_sendOn hperform]
    exact ⟨fun h _ hf _ => h hf, fun h hf => h hid hf hptr⟩
  · -- the pointer is refused
    refine iff_of_true (isolated_of_same ?_) fun _ _ h => absurd h hptr
    obtain ⟨hdata, hbad⟩ := Classical.not_imp.mp hptr
    have hlen : 0 < data.length := List.length_pos_iff.mpr hdata
    simp only [perform, tcpSend, dif_pos hid]
    rw [if_pos (by simp [hlen, hbad])]

theorem isolated_recvOn {bufMax : Nat} (hc : perform api slots task c = recvOn api slots i bufMax) :
    Isolated api slots task c ↔ (Foreign slots task i → ¬ RecvActs api (slots i) bufMax) := by
  refine isolated_transfer api.canRecv (fun socket => (api.recvSlice socket bufMax).2) (fun socket hcan => ?_)
    (fun socket hconn hsocket hcan => ?_) fun hcannot => ?_
  · refine ⟨fun hne => Nat.pos_of_ne_zero ?_, api.recvSlice_ne socket bufMax hcan⟩
    rintro rfl
    exact hne (api.recvSlice_zero socket)
  · rw [hc, recvOn, hconn, hsocket]
    simp [hcan]
  · rw [hc, recvOn]
    split
    · next socket hconn hsocket =>
      rw [if_neg (by rw [hcannot socket hconn hsocket]; decide)]
      split <;> rfl
    · rfl

theorem isolated_pollRecv_iff (slotId bufPtr bufMax : Nat) :
    Isolated api slots task (.pollRecv slotId bufPtr bufMax) ↔
      Harmless api slots task (.pollRecv slotId bufPtr bufMax) := by
  by_cases hid : slotId < maxAsyncSlots
  swap
  · refine iff_of_true (isolated_of_same ?_) fun h => absurd h hid
    simp only [perform, tcpPollRecv, dif_neg hid]
  by_cases hrefused : (decide (0 < bufMax) && !validateUserPtr bufPtr bufMax) = true
  · refine iff_of_true (isolated_of_same ?_) ?_
    · simp only [perform, tcpPollRecv, dif_pos hid]
      rw [if_pos hrefused]
    · intro _ _ hptr
      simp [hptr] at hrefused
  · have hperform : perform api slots task (.pollRecv slotId bufPtr bufMax) =
        recvOn api slots ⟨slotId, hid⟩ bufMax := by
      simp only [perform, tcpPollRecv, dif_pos hid, if_neg hrefused]
    rw [isolated_recvOn hperform]
    constructor
    · intro h _ hf _
      exact h hf
    · rintro h hf ⟨socket, hconn, hs, hcan, hpos⟩
      refine h hid hf ?_ ⟨socket, hconn, hs, hcan, hpos⟩
      simpa [hpos] using hrefused

/-- **Isolation between tasks.**  In every state, a call leaves the slots of other tasks as they were iff it
    is harmless. -/
theorem isolated_iff (api : SocketApi σ) (slots : Slots σ) (task : Nat) (c : Call) :
    Isolated api slots task c ↔ Harmless api slots task c := by
  cases c with
  | connect ip port nowMs hasIp => exact iff_of_true (isolated_connect ip port nowMs hasIp) trivial
  | send slotId dataPtr data => exact isolated_send_iff slotId dataPtr data
  | pollRecv slotId bufPtr bufMax => exact isolated_pollRecv_iff slotId bufPtr bufMax
  | close slotId =>
    by_cases hid : slotId < maxAsyncSlots
    · have hslots : (perform api slots task (.close slotId)).2 = update slots ⟨slotId, hid⟩
          { slots ⟨slotId, hid⟩ with socket := none, state := .free, owner := 0 } := by
        simp only [perform, tcpClose, dif_pos hid]
      by_cases hfree : (slots ⟨slotId, hid⟩).state = .free
      · -- a free slot is nobody's
        have hnot : ¬ Foreign slots task ⟨slotId, hid⟩ := fun hf => hf.1 hfree
        exact iff_of_true ((isolated_of_update _ _ hslots).mpr fun hf => absurd hf hnot) fun _ => hnot
      · rw [not_isolated_of_state hslots (Ne.symm hfree)]
        exact ⟨fun h _ => h, fun h => h hid⟩
    · refine iff_of_true (isolated_of_same ?_) fun h => absurd h hid
      simp only [perform, tcpClose, dif_neg hid]
  | refused _ => exact iff_of_true (isolated_of_same rfl) trivial

/-! ## Runs -/

/-- Every call of a sequence of events is isolated in the state it is made in. -/
def IsolatedRun (api : SocketApi σ) (slots : Slots σ) : List (Event σ) → Prop
  | [] => True
  | .poll f :: rest => IsolatedRun api (slots.polled f) rest
  | .call task c :: rest => Isolated api slots task c ∧ IsolatedRun api (perform api slots task c).2 rest

/-- Every call is harmless in the state it is made in. -/
def HarmlessRun (api : SocketApi σ) (slots : Slots σ) : List (Event σ) → Prop
  | [] => True
  | .poll f :: rest => HarmlessRun api (slots.polled f) rest
  | .call task c :: rest => Harmless api slots task c ∧ HarmlessRun api (perform api slots task c).2 rest

/-- **Isolation over whole histories**: polls of the network and calls of any tasks, in any order. -/
theorem isolatedRun_iff (api : SocketApi σ) (slots : Slots σ) (events : List (Event σ)) :
    IsolatedRun api slots events ↔ HarmlessRun api slots events := by
  induction events generalizing slots with
  | nil => exact Iff.rfl
  | cons e rest ih =>
    cases e with
    | poll f => exact ih (slots.polled f)
    | call task c => exact and_congr (isolated_iff api slots task c) (ih _)

end

/-! ## A run on a small socket -/

/-- A socket with its two buffers, as small as it can be. -/
structure BufferSocket where
  remote : Nat × Nat
  established : Bool
  tx : List UInt8
  rx : List UInt8
deriving Repr, DecidableEq

/-- Sockets that are send buffers of 8192 bytes. -/
def bufferApi : SocketApi BufferSocket where
  remoteEndpoint s := some s.remote
  maySend s := s.established
  canSend s := s.established && s.tx.length < 8192
  mayRecv s := s.established
  canRecv s := s.established && s.rx ≠ []
  isActive _ := true
  sendSlice s data :=
    let sent := data.take (8192 - s.tx.length)
    (some sent.length, { s with tx := s.tx ++ sent })
  recvSlice s n := (some (s.rx.take n).length, { s with rx := s.rx.drop n })
  connect ip port := some { remote := (ip, port), established := false, tx := [], rx := [] }
  sendSlice_nil := by
    intro s
    simp
  sendSlice_ne := by
    intro s data hcan hdata heq
    have hlen := congrArg (fun s => s.tx.length) heq
    have hpos := List.length_pos_iff.mpr hdata
    simp only [Bool.and_eq_true, decide_eq_true_eq] at hcan
    simp only [List.length_append, List.length_take] at hlen
    omega
  recvSlice_zero := by
    intro s
    rfl
  recvSlice_ne := by
    intro s n hcan hn heq
    have hlen := congrArg (fun s => s.rx.length) heq
    simp only [Bool.and_eq_true, decide_eq_true_eq] at hcan
    have hpos := List.length_pos_iff.mpr hcan.2
    simp only [List.length_drop] at hlen
    omega

/-- Task 1 has connected, and the network has finished the handshake and delivered two bytes. -/
def established : Slots BufferSocket :=
  [.call 1 (.connect 0x0A000202 80 5 true),
    .poll fun _ socket => { socket with established := true, rx := [1, 2] },
    .call 1 (.connect 0x0A000202 80 6 true)].foldl (step bufferApi) .empty

/-- **Another task sends, receives and closes.**  Task 2 changes slot 0 of task 1 with each of the three
    calls. -/
theorem foreign_calls_act : Foreign established 2 0 ∧
    (perform bufferApi established 2 (.send 0 0x1000 [7])).2 0 ≠ established 0 ∧
    (perform bufferApi established 2 (.pollRecv 0 0x1000 16)).2 0 ≠ established 0 ∧
    (perform bufferApi established 2 (.close 0)).2 0 ≠ established 0 := by
  refine ⟨⟨by decide +kernel, by decide +kernel⟩, by decide +kernel, by decide +kernel, by decide +kernel⟩

end Folkering.TcpSlots
