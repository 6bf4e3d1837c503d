/-
  What is left of a task's TCP slots when it exits.

  `free_task_slots` runs when a task exits.  It only TRIES the lock of the network state: if another core or
  task holds it, the clean-up is skipped and nobody makes up for it.
    * `Change`            — what one call of a task does to a slot, said once;
    * `matched_after`     — in every run a slot is free iff it has no socket;
    * `exit_clean_iff`    — after the exit no slot is the task's, now and later, exactly if the clean-up got the
      network state or the task had no slot.
-/
import Folkering.Net.TcpSlots

namespace Folkering.TcpSlots

open Option

/-! ## The clean-up -/

/-- What `try_lock` on the network state finds. -/
inductive NetState where
  | locked
  | absent
  | present
deriving Repr, DecidableEq

/-- A slot that is closed, or cleaned up at an exit. -/
def AsyncSlot.close {σ : Type} (slot : AsyncSlot σ) : AsyncSlot σ :=
  { slot with socket := none, state := .free, owner := 0 }

/-- `free_task_slots`: with the network locked or absent nothing is freed. -/
def freeTaskSlots {σ : Type} (slots : Slots σ) (task : Nat) : NetState → Slots σ
  | .locked => slots
  | .absent => slots
  | .present => fun i => if (slots i).owner ≠ task then slots i else (slots i).close

/-- An event, or the exit of a task. -/
inductive TaskEvent (σ : Type) where
  | event (e : Event σ)
  | exit (task : Nat) (net : NetState)

section

variable {σ : Type} (api : SocketApi σ)

/-- One of these. -/
def taskStep (slots : Slots σ) : TaskEvent σ → Slots σ
  | .event e => step api slots e
  | .exit task net => freeTaskSlots slots task net

/-- A sequence of them. -/
def runFrom (slots : Slots σ) (events : List (TaskEvent σ)) : Slots σ := events.foldl (taskStep api) slots

/-- The event is no call of the task. -/
def TaskEvent.NotBy (task : Nat) : TaskEvent σ → Prop
  | .event (.call t _) => t ≠ task
  | _ => True

end

/-! ## Slots -/

/-- The slot is free iff it has no socket. -/
def AsyncSlot.Matched {σ : Type} (slot : AsyncSlot σ) : Prop := slot.state = .free ↔ slot.socket = none

/-- The slot is the task's.  A free slot of owner 0 is nobody's. -/
def AsyncSlot.Owned {σ : Type} (slot : AsyncSlot σ) (task : Nat) : Prop :=
  slot.owner = task ∧ (task ≠ 0 ∨ slot.state ≠ .free)

/-- What a step may do to a slot: only the tasks of `who` can get it. -/
def Change {σ : Type} (who : Nat → Prop) (slot slot' : AsyncSlot σ) : Prop :=
  slot.Matched → slot'.Matched ∧ ∀ t, ¬ who t → slot'.Owned t → slot.Owned t

section

variable {σ : Type} {who : Nat → Prop} {slot slot' : AsyncSlot σ}

theorem Change.refl (who : Nat → Prop) (slot : AsyncSlot σ) : Change who slot slot := fun h => ⟨h, fun _ _ ht => ht⟩

theorem Change.trans {slot'' : AsyncSlot σ} (h : Change who slot slot') (h' : Change who slot' slot'') :
    Change who slot slot'' := by
  intro hm
  obtain ⟨hm', hback⟩ := h hm
  obtain ⟨hm'', hback'⟩ := h' hm'
  exact ⟨hm'', fun t ht howned => hback t ht (hback' t ht howned)⟩

theorem Change.close (who : Nat → Prop) (slot : AsyncSlot σ) : Change who slot slot.close := by
  refine fun _ => ⟨iff_of_true rfl rfl, ?_⟩
  rintro t _ ⟨rfl, hzero | hstate⟩
  · exact absurd rfl hzero
  · exact absurd rfl hstate

theorem Change.release (who : Nat → Prop) (slot : AsyncSlot σ) : Change who slot slot.release := by
  refine fun _ => ⟨iff_of_true rfl rfl, ?_⟩
  rintro t _ ⟨howner, hzero | hstate⟩
  · exact ⟨howner, Or.inl hzero⟩
  · exact absurd rfl hstate

/-- A slot with a socket goes on with a socket, under the same owner. -/
theorem Change.use (who : Nat → Prop) {socket : σ} (hsocket : slot.socket = some socket)
    (hsocket' : slot'.socket ≠ none) (hstate' : slot'.state ≠ .free) (howner : slot'.owner = slot.owner) :
    Change who slot slot' := by
  intro hm
  have hused : slot.state ≠ .free := by
    intro hfree
    rw [hm.mp hfree] at hsocket
    cases hsocket
  refine ⟨iff_of_false hstate' hsocket', ?_⟩
  rintro t _ ⟨ht, _⟩
  exact ⟨howner ▸ ht, Or.inr hused⟩

theorem Change.promote (who : Nat → Prop) {socket : σ} (hsocket : slot.socket = some socket) :
    Change who slot slot.promote :=
  Change.use who hsocket (by rw [AsyncSlot.promote, hsocket]; exact some_ne_none _) (by simp [AsyncSlot.promote]) rfl

theorem Change.update {slots : Slots σ} {i : Fin maxAsyncSlots} (h : Change who (slots i) slot) (j : Fin maxAsyncSlots) :
    Change who (slots j) (Function.update slots i slot j) := by
  by_cases hj : j = i
  · subst hj
    rw [Function.update_self]
    exact h
  · rw [Function.update_of_ne hj]
    exact Change.refl who _

end

/-! ## Calls -/

section

variable {σ : Type} (api : SocketApi σ) (who : Nat → Prop) (slots : Slots σ)

theorem change_repoll (i j : Fin maxAsyncSlots) : Change who (slots j) ((repoll api slots i).2 j) := by
  unfold repoll
  split
  · exact Change.refl who _
  · next socket hsocket =>
    split
    · exact (Change.promote who hsocket).update j
    · split
      · exact (Change.release who _).update j
      · exact Change.refl who _

theorem change_allocate {task : Nat} (hwho : who task) (ip port nowMs : Nat) (j : Fin maxAsyncSlots) :
    Change who (slots j) ((allocate api slots task ip port nowMs).2 j) := by
  unfold allocate
  split
  · exact Change.refl who _
  · next i hfree =>
    split
    · exact Change.refl who _
    · next socket _ =>
      refine Change.update (fun _ => ⟨iff_of_false SlotState.noConfusion (some_ne_none socket), ?_⟩) j
      rintro t ht ⟨rfl, _⟩
      exact absurd hwho ht

theorem change_sendConnected (i j : Fin maxAsyncSlots) (data : List UInt8) :
    Change who (slots j) ((sendConnected api slots i data).2 j) := by
  unfold sendConnected
  split
  · next socket hconnected hsocket =>
    split
    · exact Change.refl who _
    · refine Change.update (Change.use who hsocket ?_ ?_ ?_) j
      · exact some_ne_none _
      · rw [hconnected]
        exact SlotState.noConfusion
      · rfl
  · exact Change.refl who _

theorem change_sendOn (i j : Fin maxAsyncSlots) (data : List UInt8) :
    Change who (slots j) ((sendOn api slots i data).2 j) := by
  unfold sendOn
  split
  · next socket _ hsocket =>
    split
    · exact ((Change.promote who hsocket).update j).trans (change_sendConnected api who _ i j data)
    · split
      · exact (Change.release who _).update j
      · exact Change.refl who _
  · exact change_sendConnected api who slots i j data

theorem change_recvOn (i j : Fin maxAsyncSlots) (bufMax : Nat) :
    Change who (slots j) ((recvOn api slots i bufMax).2 j) := by
  unfold recvOn
  split
  · next socket hconnected hsocket =>
    split
    · refine Change.update (Change.use who hsocket ?_ ?_ ?_) j
      · exact some_ne_none _
      · rw [hconnected]
        exact SlotState.noConfusion
      · rfl
    · split <;> exact Change.refl who _
  · exact Change.refl who _

/-- A call changes slots of its task only. -/
theorem change_perform {task : Nat} (hwho : who task) (c : Call) (j : Fin maxAsyncSlots) :
    Change who (slots j) ((perform api slots task c).2 j) := by
  cases c with
  | connect ip port nowMs hasIp =>
    simp only [perform, tcpConnect]
    split
    · exact Change.refl who _
    · split
      · exact change_repoll api who slots _ j
      · exact change_allocate api who slots hwho ip port nowMs j
  | send slotId dataPtr data =>
    simp only [perform, tcpSend]
    split
    · split
      · exact Change.refl who _
      · exact change_sendOn api who slots _ j data
    · exact Change.refl who _
  | pollRecv slotId bufPtr bufMax =>
    simp only [perform, tcpPollRecv]
    split
    · split
      · exact Change.refl who _
      · exact change_recvOn api who slots _ j bufMax
    · exact Change.refl who _
  | close slotId =>
    simp only [perform, tcpClose]
    split
    · exact (Change.close who _).update j
    · exact Change.refl who _
  | refused _ => exact Change.refl who _

/-- One step: no task gets a slot but the one that calls. -/
theorem change_taskStep (e : TaskEvent σ) (hwho : ∀ t, ¬ who t → e.NotBy t) (j : Fin maxAsyncSlots) :
    Change who (slots j) (taskStep api slots e j) := by
  cases e with
  | event e =>
    cases e with
    | poll f =>
      intro hm
      refine ⟨?_, fun _ _ howned => howned⟩
      simp only [AsyncSlot.Matched, taskStep, step, Slots.polled, map_eq_none_iff]
      exact hm
    | call task c => exact change_perform api who slots (by_contra fun hnot => hwho task hnot rfl) c j
  | exit task net =>
    cases net with
    | locked => exact Change.refl who _
    | absent => exact Change.refl who _
    | present =>
      simp only [taskStep, freeTaskSlots]
      split
      · exact Change.refl who _
      · exact Change.close who _

/-- So does a sequence of them. -/
theorem change_runFrom (events : List (TaskEvent σ)) (hwho : ∀ e ∈ events, ∀ t, ¬ who t → e.NotBy t)
    (j : Fin maxAsyncSlots) : Change who (slots j) (runFrom api slots events j) := by
  induction events generalizing slots with
  | nil => exact Change.refl who _
  | cons e events ih =>
    exact (change_taskStep api who slots e (hwho e List.mem_cons_self) j).trans
      (ih _ fun e' he => hwho e' (List.mem_cons_of_mem _ he))

end

/-! ## Exits -/

section

variable {σ : Type} (api : SocketApi σ)

/-- Slots and sockets match after every run. -/
theorem matched_after (events : List (TaskEvent σ)) (i : Fin maxAsyncSlots) :
    (runFrom api Slots.empty events i).Matched :=
  (change_runFrom api (fun _ => True) Slots.empty events (fun _ _ _ hnot => absurd trivial hnot) i
    (iff_of_true rfl rfl)).1

/-- With the network present, no slot is left. -/
theorem freeTaskSlots_clean (slots : Slots σ) (task : Nat) (i : Fin maxAsyncSlots) :
    ¬ (freeTaskSlots slots task .present i).Owned task := by
  rintro ⟨howner, hused⟩
  simp only [freeTaskSlots] at howner hused
  split at howner
  · next hne => exact hne howner
  · next heq =>
    rw [if_neg heq] at hused
    rcases hused with hzero | hstate
    · exact hzero howner.symm
    · exact hstate rfl

/-- Slots are free exactly when they have no socket, and an exit leaves the task none of them, then and as long
as it makes no call, exactly if the clean-up finds the network state or the task has none. -/
theorem exit_clean_iff (events : List (TaskEvent σ)) (task : Nat) (net : NetState) :
    (∀ i, (runFrom api Slots.empty events i).state = .free ↔ (runFrom api Slots.empty events i).socket = none) ∧
    ((∀ later : List (TaskEvent σ), (∀ e ∈ later, e.NotBy task) →
        ∀ i, ¬ (runFrom api Slots.empty (events ++ .exit task net :: later) i).Owned task) ↔
      net = .present ∨ ∀ i, ¬ (runFrom api Slots.empty events i).Owned task) := by
  refine ⟨matched_after api events, ?_⟩
  have hrun : ∀ later, runFrom api Slots.empty (events ++ .exit task net :: later) =
      runFrom api (freeTaskSlots (runFrom api Slots.empty events) task net) later := by
    intro later
    rw [runFrom, List.foldl_append]
    rfl
  have hlast := matched_after api (events ++ [.exit task net])
  rw [hrun] at hlast
  constructor
  · intro hclean
    by_cases hnet : net = .present
    · exact Or.inl hnet
    · refine Or.inr fun i howned => hclean [] (fun _ he => absurd he List.not_mem_nil) i ?_
      rw [hrun]
      cases net with
      | locked => exact howned
      | absent => exact howned
      | present => exact absurd rfl hnet
  · intro hcond later hlater i howned
    rw [hrun] at howned
    -- nobody else gives the task a slot later
    have hexit := (change_runFrom api (· ≠ task) _ later (fun e he t ht => Classical.not_not.mp ht ▸ hlater e he) i
      (hlast i)).2 task (fun hne => hne rfl) howned
    rcases hcond with rfl | hnone
    · exact freeTaskSlots_clean _ task i hexit
    · refine hnone i ((change_taskStep api (fun _ => False) _ (.exit task net) (fun _ _ => trivial) i
        (matched_after api events i)).2 task id hexit)

end

/-- A task with one connection exits while the network state is locked, and stays the owner of slot 0. -/
theorem locked_exit_leaks : (runFrom bufferApi Slots.empty
    [.event (.call 5 (.connect 0x0A000202 80 0 true)), .exit 5 .locked] 0).Owned 5 :=
  ⟨by decide +kernel, Or.inl (by decide)⟩

end Folkering.TcpSlots
