/-
  The run queue over whole histories.

  The queue is a plain list of task numbers: `add_task` appends, `schedule_next` moves the selected number to
  the back, and nothing ever takes a number out.  A task is appended when it is created, and again whenever a
  message, a reply or the exit of the task it waits for wakes it.

  1. **Program** — `Kernel`: the IPC system, the scheduler, the task table's keys; `step` is one creation, one
     IPC call, one exit or one scheduling decision.
  2. **Specification** — `WellFormed`: no number twice, none of a task that is gone, so at most as many as
     there are live tasks.
  3. **The crux** (`Inv`, kept by every step) — a live task is ALWAYS queued already, also while it is blocked.
     So every wake-up queues a number a second time and every exit leaves one behind.
  4. **The result** — a history is well formed throughout iff nothing in it wakes or exits
     (`wellFormedRun_iff`).
-/
import Folkering.Ipc.Waiting
import Folkering.Task.Scheduler

namespace Folkering.RunQueue

open Ipc List Function

/-- The tasks with their messages, and the run queue. -/
structure Kernel where
  world : World
  sched : Sched.Scheduler
  /-- the keys of the task table, in its order -/
  ids : List Nat
  nextTaskId : Nat

namespace Kernel

/-- No task. -/
def boot : Kernel :=
  { world := .boot fun _ => false, sched := .new, ids := [], nextTaskId := 1 }

/-- The run queue. -/
def queue (k : Kernel) : List Nat := k.sched.tasks

/-- The table of tasks. -/
def tasks (k : Kernel) (t : Nat) : Option Task := k.world.sys.tasks t

/-- Replace the tasks. -/
def setSys (k : Kernel) (s : Sys) : Kernel := { k with world := { k.world with sys := s } }

/-- Put a task at the end of the run queue. -/
def enqueue (k : Kernel) (taskId : Nat) : Kernel := { k with sched := k.sched.addTask taskId }

/-- The end of `spawn`: a number is taken, the task is put into the table and into the queue. -/
def spawn (k : Kernel) : Kernel :=
  let taskId := k.nextTaskId
  let table := update k.world.sys.tasks taskId (some .new)
  let ids := if taskId ∈ k.ids then k.ids else k.ids.orderedInsert (· ≤ ·) taskId
  let k := { k with ids := ids, nextTaskId := (taskId + 1) % 2 ^ 32 }
  (k.setSys { k.world.sys with tasks := table }).enqueue taskId

/-! ## Exit -/

/-- A task that waits for the exiting one, in a send or for a reply. -/
def shouldWake (exiting : Nat) (task : Task) : Bool :=
  task.blockedOn == some exiting &&
    match task.state with
    | .blockedOnSend x => x == exiting
    | .waitingForReply _ => true
    | _ => false

/-- The task runs again and its call fails. -/
def wakeWithError (task : Task) : Task :=
  { task with rax := 2 ^ 64 - 1, state := .runnable, blockedOn := none, ipcReply := none }

/-- One round of the loop of `unblock_waiters_for`. -/
def unblock (exiting : Nat) (k : Kernel) (tid : Nat) : Kernel :=
  if (k.tasks tid).any (shouldWake exiting) then (k.setSys (k.world.sys.update tid wakeWithError)).enqueue tid
  else k

/-- Wake every task that waits for the exiting one. -/
def unblockWaitersFor (k : Kernel) (exiting : Nat) : Kernel := k.ids.foldl (unblock exiting) k

/-- Take a task out of the table. -/
def removeTask (k : Kernel) (t : Nat) : Kernel :=
  let k := { k with ids := k.ids.erase t }
  k.setSys { k.world.sys with tasks := update k.world.sys.tasks t none }

/-- A task ends. -/
def exit (k : Kernel) (t : Nat) : Kernel :=
  let k := k.setSys (k.world.sys.update t fun task => { task with state := .exited })
  (k.unblockWaitersFor t).removeTask t

end Kernel

/-! ## IPC calls -/

/-- A receiver that is woken once the message is in its queue. -/
def wokenReceiver (s : Sys) (target : Nat) : List Nat :=
  if s.stateOf target = some .blockedOnReceive then [target] else []

/-- The numbers that an IPC call appends to the run queue. -/
def woken (s : Sys) : Act → List Nat
  | .send t target payload permitted transferred =>
    match s.enqueue t target .request payload permitted transferred with
    -- the sender is blocked before the receiver's state is looked at
    | (.ok msg, s) => wokenReceiver (s.block t target msg.msgId) target
    | (.error _, _) => []
  | .sendAsync t target payload permitted transferred =>
    match s.enqueue t target .notification payload permitted transferred with
    | (.ok _, s) => wokenReceiver s target
    | (.error _, _) => []
  | .reply t payload => ((completes s (.reply t payload)).map (·.1)).toList
  | .replyToken t token payload => ((completes s (.replyToken t token payload)).map (·.1)).toList
  | _ => []

/-- What changes the queue. -/
inductive Call where
  | spawn
  | ipc (act : Act)
  | exit (t : Nat)
  | schedule (table : Sched.TaskTable) (currentTime : UInt64) (hint : Option Sched.Hint)

/-- One call; nothing when the calling task does not execute. -/
def step (k : Kernel) : Call → Option Kernel
  | .spawn => some k.spawn
  | .ipc act => (next k.world act).map fun w => (woken k.world.sys act).foldl Kernel.enqueue { k with world := w }
  | .exit t => if k.world.sys.executes t then some (k.exit t) else none
  -- the priorities in the table are any: they decide which number moves to the back
  | .schedule table currentTime hint =>
    some { k with sched := (Sched.scheduleNext k.sched table currentTime hint).2.1 }

/-! ## What the queue should be -/

/-- In the table, and not on its way out. -/
def Kernel.Live (k : Kernel) (t : Nat) : Prop := ∃ task, k.tasks t = some task ∧ task.state ≠ .exited

/-- The task exists and has not exited. -/
def Kernel.live (k : Kernel) (t : Nat) : Bool := (k.tasks t).any fun task => task.state != .exited

/-- The queue has live tasks only, and none twice. -/
structure WellFormed (k : Kernel) : Prop where
  nodup : k.queue.Nodup
  live : ∀ t ∈ k.queue, k.Live t
  length : k.queue.length ≤ (k.ids.filter k.live).length

theorem Kernel.live_iff {k : Kernel} {t : Nat} : k.live t = true ↔ k.Live t := by
  cases h : k.tasks t with
  | none =>
    rw [live, Live, h]
    constructor
    · intro hf
      cases hf
    · rintro ⟨_, hf, -⟩
      cases hf
  | some task =>
    rw [live, Live, h]
    simp only [Option.any_some, bne_iff_ne, ne_eq, Option.some.injEq, exists_eq_left']

/-! ## The invariant -/

/-- The table's keys are its tasks, none of them is exited, and each is queued. -/
structure Inv (k : Kernel) : Prop where
  ids_nodup : k.ids.Nodup
  mem_ids : ∀ t, t ∈ k.ids ↔ (k.tasks t).isSome = true
  present : ∀ t task, k.tasks t = some task → task.state ≠ .exited
  queued : ∀ t, (k.tasks t).isSome = true → t ∈ k.queue

theorem Inv.live_iff {k : Kernel} (h : Inv k) {t : Nat} : k.Live t ↔ (k.tasks t).isSome = true := by
  constructor
  · rintro ⟨task, htask, -⟩
    rw [htask]
    rfl
  · intro ht
    obtain ⟨task, htask⟩ := Option.isSome_iff_exists.mp ht
    exact ⟨task, htask, h.present t task htask⟩

/-- The length follows from the other two. -/
theorem Inv.wellFormed_iff {k : Kernel} (h : Inv k) :
    WellFormed k ↔ k.queue.Nodup ∧ ∀ t ∈ k.queue, (k.tasks t).isSome = true := by
  constructor
  · exact fun hw => ⟨hw.nodup, fun t ht => h.live_iff.mp (hw.live t ht)⟩
  · rintro ⟨hnodup, hlive⟩
    refine ⟨hnodup, fun t ht => h.live_iff.mpr (hlive t ht), ?_⟩
    refine (hnodup.subperm fun t ht => ?_).length_le
    rw [mem_filter, Kernel.live_iff, h.live_iff, h.mem_ids]
    exact ⟨hlive t ht, hlive t ht⟩

theorem Inv.boot : Inv .boot := by
  refine ⟨nodup_nil, ?_, ?_, ?_⟩
  · intro t
    exact ⟨fun h => (not_mem_nil h).elim, fun h => by cases h⟩
  · intro t task h
    cases h
  · intro t h
    cases h

/-! ## IPC keeps the table's keys -/

/-- The same tasks, and none newly exited. -/
structure Keeps (s s' : Sys) : Prop where
  isSome : ∀ t, (s'.tasks t).isSome = (s.tasks t).isSome
  exited : ∀ t task', s'.tasks t = some task' → task'.state = .exited →
    ∃ task, s.tasks t = some task ∧ task.state = .exited

namespace Keeps

/-- Task by task, a change that does not set `exited`. -/
theorem of_along {R : Task → Task → Prop} (hR : ∀ k k', R k k' → k'.state = .exited → k.state = .exited)
    {s s' : Sys} (h : s.Along R s') : Keeps s s' := by
  refine ⟨h.isSome_eq, fun t task' ht he => ?_⟩
  obtain ⟨task, htask, hr⟩ := h.back ht
  exact ⟨task, htask, hR task task' hr he⟩

theorem of_settled {s s' : Sys} (h : s.Settled s') : Keeps s s' := of_along (fun _ _ hk => hk.2.mp) h

theorem refl (s : Sys) : Keeps s s := of_settled (Sys.Settled.refl s)

theorem trans {a b c : Sys} (h : Keeps a b) (h' : Keeps b c) : Keeps a c := by
  refine ⟨fun t => (h'.isSome t).trans (h.isSome t), fun t task hc he => ?_⟩
  obtain ⟨task', hb, he'⟩ := h'.exited t task hc he
  exact h.exited t task' hb he'

/-- A change of one task that does not set `exited`. -/
theorem update (s : Sys) (t : Nat) {f : Task → Task}
    (hf : ∀ task, (f task).state = .exited → task.state = .exited) : Keeps s (s.update t f) :=
  of_along (R := fun k k' => k'.state = .exited → k.state = .exited) (fun _ _ => id)
    (Sys.along_update (fun _ => id) fun k _ => hf k)

theorem enqueue (s : Sys) (current target : Nat) (msgType : IpcType) (payload : List Nat)
    (permitted transferred : Bool) :
    Keeps s (s.enqueue current target msgType payload permitted transferred).2 :=
  of_settled (Sys.settled_enqueue current target msgType payload permitted transferred)

theorem next {w w' : World} {act : Act} (h : next w act = some w') : Keeps w.sys w'.sys := by
  rw [next_sys h]
  cases act with
  | send t target payload permitted transferred =>
    have henq := enqueue w.sys t target .request payload permitted transferred
    rw [Act.sysAfter, Sys.ipcSend]
    split
    · next heq => rwa [heq] at henq
    · next heq =>
      rw [heq] at henq
      exact henq.trans ((update _ t fun _ he => by cases he).trans (of_settled (Sys.settled_wakeReceiver target)))
  | receive t =>
    rw [Act.sysAfter, Sys.ipcReceive]
    split
    · next hpop => exact of_settled ((Sys.settled_popMessage hpop).trans (Sys.settled_keepMessage t _))
    · exact update _ t fun _ he => by cases he
  | _ => exact of_settled (Sys.settled_sysAfter rfl)

end Keeps

/-! ## The queue after a step -/

theorem queue_foldl_enqueue (k : Kernel) (ts : List Nat) : (ts.foldl Kernel.enqueue k).queue = k.queue ++ ts := by
  induction ts generalizing k with
  | nil => exact (append_nil _).symm
  | cons t ts ih =>
    rw [foldl_cons, ih]
    show (k.queue ++ [t]) ++ ts = k.queue ++ t :: ts
    rw [append_assoc, singleton_append]

theorem world_foldl_enqueue (k : Kernel) (ts : List Nat) : (ts.foldl Kernel.enqueue k).world = k.world := by
  induction ts generalizing k with
  | nil => rfl
  | cons t ts ih => exact ih _

theorem ids_foldl_enqueue (k : Kernel) (ts : List Nat) : (ts.foldl Kernel.enqueue k).ids = k.ids := by
  induction ts generalizing k with
  | nil => rfl
  | cons t ts ih => exact ih _

/-- A scheduling decision permutes the queue. -/
theorem scheduleNext_perm (s : Sched.Scheduler) (table : Sched.TaskTable) (currentTime : UInt64)
    (hint : Option Sched.Hint) : (Sched.scheduleNext s table currentTime hint).2.1.tasks.Perm s.tasks := by
  have htasks := Sched.adjust_tasks s table currentTime hint
  unfold Sched.scheduleNext
  split
  rename_i s' table' heq
  rw [heq] at htasks
  split
  · rw [htasks]
  · show (Sched.rotate s'.tasks _).Perm s.tasks
    rw [htasks, Sched.rotate]
    split_ifs with hmem
    · exact (perm_append_singleton _ _).trans (perm_cons_erase hmem).symm
    · exact List.Perm.refl _

/-- What is woken is in the table. -/
theorem isSome_of_woken {s : Sys} {act : Act} {t : Nat} (h : t ∈ woken s act) : (s.tasks t).isSome = true := by
  have hreceiver : ∀ {s' : Sys} {target : Nat}, t ∈ wokenReceiver s' target → (s'.tasks t).isSome = true := by
    intro s' target ht
    rw [wokenReceiver] at ht
    split_ifs at ht with hstate
    · rw [mem_singleton] at ht
      subst ht
      rw [Sys.stateOf, Option.map_eq_some_iff] at hstate
      obtain ⟨task, htask, -⟩ := hstate
      rw [htask]
      rfl
    · cases ht
  cases act with
  | send u target payload permitted transferred =>
    have henq := Keeps.enqueue s u target .request payload permitted transferred
    simp only [woken] at h
    split at h
    · rename_i msg s' heq
      rw [heq] at henq
      have hblock : Keeps s' (s'.block u target msg.msgId) := Keeps.update s' u fun _ he => by cases he
      rw [← henq.isSome, ← hblock.isSome]
      exact hreceiver h
    · cases h
  | sendAsync u target payload permitted transferred =>
    have henq := Keeps.enqueue s u target .notification payload permitted transferred
    simp only [woken] at h
    split at h
    · rename_i msg s' heq
      rw [heq] at henq
      rw [← henq.isSome]
      exact hreceiver h
    · cases h
  | reply | replyToken =>
    simp only [woken, Option.mem_toList, Option.map_eq_some_iff] at h
    obtain ⟨⟨t', u', id⟩, hc, rfl⟩ := h
    obtain ⟨-, htask, -⟩ := sysAfter_of_completes hc
    exact htask
  | receive | recvAsync | yieldReturns | resume => cases h

/-! ## The exit loop -/

namespace Kernel

/-- What a round of the loop keeps. -/
theorem unblock_keeps (exiting : Nat) (k : Kernel) (tid : Nat) :
    Keeps k.world.sys (unblock exiting k tid).world.sys ∧ (unblock exiting k tid).ids = k.ids ∧
      k.queue ⊆ (unblock exiting k tid).queue := by
  unfold unblock
  split_ifs
  · exact ⟨Keeps.update _ _ (by intro _ he; cases he), rfl, subset_append_left _ _⟩
  · exact ⟨Keeps.refl _, rfl, List.Subset.refl _⟩

theorem foldl_unblock_keeps (exiting : Nat) (tids : List Nat) (k : Kernel) :
    Keeps k.world.sys (tids.foldl (unblock exiting) k).world.sys ∧
      (tids.foldl (unblock exiting) k).ids = k.ids ∧
      k.queue ⊆ (tids.foldl (unblock exiting) k).queue := by
  induction tids generalizing k with
  | nil => exact ⟨Keeps.refl _, rfl, List.Subset.refl _⟩
  | cons tid tids ih =>
    obtain ⟨hkeeps, hids, hqueue⟩ := unblock_keeps exiting k tid
    obtain ⟨hkeeps', hids', hqueue'⟩ := ih (unblock exiting k tid)
    exact ⟨hkeeps.trans hkeeps', hids'.trans hids, List.Subset.trans hqueue hqueue'⟩

/-- The exiting task is gone, the others are as they were in the table, and the queue only grew. -/
theorem exit_effect (k : Kernel) (t : Nat) :
    (k.exit t).tasks t = none ∧ (∀ u, u ≠ t → ((k.exit t).tasks u).isSome = (k.tasks u).isSome) ∧
      (∀ u task, (k.exit t).tasks u = some task → task.state = .exited →
        ∃ task', k.tasks u = some task' ∧ task'.state = .exited) ∧
      (k.exit t).ids = k.ids.erase t ∧ k.queue ⊆ (k.exit t).queue := by
  let marked := k.setSys (k.world.sys.update t fun task => { task with state := .exited })
  obtain ⟨hkeeps, hids, hqueue⟩ := foldl_unblock_keeps t marked.ids marked
  -- the marking changes the entry of `t` only
  have hne : ∀ u, u ≠ t → marked.tasks u = k.tasks u := fun u hu => update_of_ne hu _ _
  have htasks : ∀ u, u ≠ t → (k.exit t).tasks u = (marked.unblockWaitersFor t).tasks u :=
    fun u hu => update_of_ne hu _ _
  refine ⟨update_self _ _ _, ?_, ?_, ?_, hqueue⟩
  · intro u hu
    rw [htasks u hu, ← hne u hu]
    exact hkeeps.isSome u
  · intro u task hu he
    have hut : u ≠ t := by
      rintro rfl
      have hnone : (k.exit u).tasks u = none := update_self _ _ _
      rw [hnone] at hu
      cases hu
    rw [htasks u hut] at hu
    rw [← hne u hut]
    exact hkeeps.exited u task hu he
  · show (marked.unblockWaitersFor t).ids.erase t = k.ids.erase t
    rw [unblockWaitersFor, hids]
    rfl

end Kernel

/-! ## The steps -/

/-- The call creates no second task with a number that is in use, wakes nobody and is no exit. -/
def Quiet (k : Kernel) : Call → Prop
  | .spawn => (k.tasks k.nextTaskId).isSome = false
  | .ipc act => woken k.world.sys act = []
  | .exit _ => False
  | .schedule _ _ _ => True

/-- One call keeps the invariant; from a well-formed queue it leads to one iff it is quiet. -/
structure Stepped (k : Kernel) (c : Call) (k' : Kernel) : Prop where
  inv : Inv k'
  wellFormed_iff : WellFormed k → (WellFormed k' ↔ Quiet k c)

section

variable {k : Kernel} (h : Inv k)

include h

/-- A task is created. -/
theorem Inv.spawn : Stepped k .spawn k.spawn := by
  have hself : k.spawn.tasks k.nextTaskId = some .new := update_self _ _ _
  have hne : ∀ t, t ≠ k.nextTaskId → k.spawn.tasks t = k.tasks t := fun t ht => update_of_ne ht _ _
  have hqueue : k.spawn.queue = k.queue ++ [k.nextTaskId] := rfl
  have hids : k.spawn.ids =
      if k.nextTaskId ∈ k.ids then k.ids else k.ids.orderedInsert (· ≤ ·) k.nextTaskId := rfl
  have hinv : Inv k.spawn := by
    refine ⟨?_, ?_, ?_, ?_⟩
    · rw [hids]
      split_ifs with hmem
      · exact h.ids_nodup
      · exact ((perm_orderedInsert _ _ _).nodup_iff).mpr (nodup_cons.mpr ⟨hmem, h.ids_nodup⟩)
    · intro t
      have hmem : t ∈ k.spawn.ids ↔ t = k.nextTaskId ∨ t ∈ k.ids := by
        rw [hids]
        split_ifs with hin
        · exact ⟨.inr, fun ht => ht.elim (fun ht => ht ▸ hin) id⟩
        · rw [mem_orderedInsert]
      rw [hmem]
      by_cases ht : t = k.nextTaskId
      · subst ht
        exact ⟨fun _ => by rw [hself]; rfl, fun _ => .inl rfl⟩
      · rw [hne t ht, ← h.mem_ids]
        exact ⟨fun hor => hor.resolve_left ht, .inr⟩
    · intro t task htask
      by_cases ht : t = k.nextTaskId
      · subst ht
        rw [hself] at htask
        cases htask
        intro he
        cases he
      · rw [hne t ht] at htask
        exact h.present t task htask
    · intro t hsome
      rw [hqueue, mem_append, mem_singleton]
      by_cases ht : t = k.nextTaskId
      · exact .inr ht
      · rw [hne t ht] at hsome
        exact .inl (h.queued t hsome)
  refine ⟨hinv, fun hwf => ?_⟩
  obtain ⟨hnodup, hlive⟩ := h.wellFormed_iff.mp hwf
  rw [hinv.wellFormed_iff, hqueue, nodup_append]
  constructor
  · rintro ⟨⟨-, -, hfresh⟩, -⟩
    -- a task with that number would be queued already
    cases hsome : (k.tasks k.nextTaskId).isSome with
    | false => exact hsome
    | true => exact absurd rfl (hfresh _ (h.queued _ hsome) _ (mem_singleton_self _))
  · intro hquiet
    refine ⟨⟨hnodup, nodup_singleton _, ?_⟩, ?_⟩
    · rintro t ht _ hu rfl
      rw [mem_singleton] at hu
      subst hu
      exact Bool.false_ne_true (hquiet.symm.trans (hlive _ ht))
    · intro t ht
      by_cases hnext : t = k.nextTaskId
      · subst hnext
        rw [hself]
        rfl
      · rw [hne t hnext]
        rw [mem_append, mem_singleton] at ht
        exact hlive t (ht.resolve_right hnext)

/-- A message is sent, received or answered. -/
theorem Inv.ipc {act : Act} {k' : Kernel} (hstep : step k (.ipc act) = some k') : Stepped k (.ipc act) k' := by
  obtain ⟨w, hnext, rfl⟩ := Option.map_eq_some_iff.mp hstep
  have hkeeps := Keeps.next hnext
  -- nothing but the system and the queue changes
  have htasks : ∀ t, ((woken k.world.sys act).foldl Kernel.enqueue { k with world := w }).tasks t = w.sys.tasks t :=
    fun t => by rw [Kernel.tasks, world_foldl_enqueue]
  have hqueue : ((woken k.world.sys act).foldl Kernel.enqueue { k with world := w }).queue =
      k.queue ++ woken k.world.sys act := queue_foldl_enqueue _ _
  have hinv : Inv ((woken k.world.sys act).foldl Kernel.enqueue { k with world := w }) := by
    refine ⟨?_, ?_, ?_, ?_⟩
    · rw [ids_foldl_enqueue]
      exact h.ids_nodup
    · intro t
      rw [ids_foldl_enqueue, htasks, hkeeps.isSome]
      exact h.mem_ids t
    · intro t task' htask' he
      rw [htasks] at htask'
      obtain ⟨task, htask, hexited⟩ := hkeeps.exited t task' htask' he
      exact h.present t task htask hexited
    · intro t hsome
      rw [htasks, hkeeps.isSome] at hsome
      rw [hqueue]
      exact mem_append_left _ (h.queued t hsome)
  refine ⟨hinv, fun hwf => ?_⟩
  obtain ⟨hnodup, hlive⟩ := h.wellFormed_iff.mp hwf
  rw [hinv.wellFormed_iff, hqueue]
  constructor
  · rintro ⟨hnodup', -⟩
    -- a woken task is in the table, so it is queued twice
    refine eq_nil_iff_forall_not_mem.mpr fun t ht => ?_
    exact (nodup_append.mp hnodup').2.2 t (h.queued t (isSome_of_woken ht)) t ht rfl
  · intro hquiet
    have hnil : woken k.world.sys act = [] := hquiet
    rw [hnil, append_nil]
    refine ⟨hnodup, fun t ht => ?_⟩
    have hsome := hlive t ht
    rw [← hnil, htasks, hkeeps.isSome]
    exact hsome

/-- A task ends. -/
theorem Inv.exit {t : Nat} (ht : k.world.sys.executes t = true) : Stepped k (.exit t) (k.exit t) := by
  obtain ⟨hgone, hne, hexited, hids, hqueue⟩ := k.exit_effect t
  have hinv : Inv (k.exit t) := by
    refine ⟨?_, ?_, ?_, ?_⟩
    · rw [hids]
      exact h.ids_nodup.erase t
    · intro u
      rw [hids, h.ids_nodup.mem_erase_iff]
      by_cases hu : u = t
      · subst hu
        rw [hgone]
        exact ⟨fun hf => absurd rfl hf.1, fun hf => by cases hf⟩
      · rw [hne u hu, ← h.mem_ids]
        exact ⟨fun hin => hin.2, fun hin => ⟨hu, hin⟩⟩
    · intro u task hu he
      obtain ⟨task', hu', he'⟩ := hexited u task hu he
      exact h.present u task' hu' he'
    · intro u hsome
      have hu : u ≠ t := by
        rintro rfl
        rw [hgone] at hsome
        cases hsome
      rw [hne u hu] at hsome
      exact hqueue (h.queued u hsome)
  refine ⟨hinv, fun _ => ⟨fun hwf => ?_, False.elim⟩⟩
  -- the task was in the queue and still is
  have hsome : (k.tasks t).isSome = true := by
    cases htask : k.tasks t with
    | some task => rfl
    | none =>
      rw [Kernel.tasks] at htask
      rw [Sys.executes, htask] at ht
      cases ht
  have hlive := (hinv.wellFormed_iff.mp hwf).2 t (hqueue (h.queued t hsome))
  rw [hgone] at hlive
  cases hlive

/-- A task is chosen. -/
theorem Inv.schedule (table : Sched.TaskTable) (currentTime : UInt64) (hint : Option Sched.Hint) :
    Stepped k (.schedule table currentTime hint)
      { k with sched := (Sched.scheduleNext k.sched table currentTime hint).2.1 } := by
  have hperm := scheduleNext_perm k.sched table currentTime hint
  have hinv : Inv { k with sched := (Sched.scheduleNext k.sched table currentTime hint).2.1 } :=
    ⟨h.ids_nodup, h.mem_ids, h.present, fun t ht => hperm.mem_iff.mpr (h.queued t ht)⟩
  refine ⟨hinv, fun hwf => ⟨fun _ => trivial, fun _ => ?_⟩⟩
  obtain ⟨hnodup, hlive⟩ := h.wellFormed_iff.mp hwf
  exact hinv.wellFormed_iff.mpr ⟨hperm.nodup_iff.mpr hnodup, fun t ht => hlive t (hperm.mem_iff.mp ht)⟩

/-- The step lemma. -/
theorem Inv.step {c : Call} {k' : Kernel} (hstep : step k c = some k') : Stepped k c k' := by
  cases c with
  | spawn =>
    cases hstep
    exact h.spawn
  | ipc act => exact h.ipc hstep
  | exit t =>
    obtain ⟨ht, hstep⟩ := Option.ite_none_right_eq_some.mp hstep
    cases hstep
    exact h.exit ht
  | schedule table currentTime hint =>
    cases hstep
    exact h.schedule table currentTime hint

end

/-! ## Histories -/

/-- Every queue of the history is well formed. -/
def WellFormedRun : Kernel → List Call → Prop
  | k, [] => WellFormed k
  | k, c :: cs => WellFormed k ∧ ∀ k', step k c = some k' → WellFormedRun k' cs

/-- Every call of the history that is executed is quiet. -/
def QuietRun : Kernel → List Call → Prop
  | _, [] => True
  | k, c :: cs => ∀ k', step k c = some k' → Quiet k c ∧ QuietRun k' cs

theorem WellFormedRun.head {k : Kernel} {cs : List Call} (h : WellFormedRun k cs) : WellFormed k := by
  cases cs with
  | nil => exact h
  | cons c cs => exact h.1

/-- The run lemma. -/
theorem wellFormedRun_iff_of_inv {k : Kernel} (h : Inv k) (hwf : WellFormed k) (cs : List Call) :
    WellFormedRun k cs ↔ QuietRun k cs := by
  induction cs generalizing k with
  | nil => exact ⟨fun _ => trivial, fun _ => hwf⟩
  | cons c cs ih =>
    constructor
    · rintro ⟨-, hrest⟩ k' hstep
      have hrun := hrest k' hstep
      have hs := h.step hstep
      exact ⟨(hs.wellFormed_iff hwf).mp hrun.head, (ih hs.inv hrun.head).mp hrun⟩
    · intro hquiet
      refine ⟨hwf, fun k' hstep => ?_⟩
      obtain ⟨hq, hrest⟩ := hquiet k' hstep
      have hs := h.step hstep
      exact (ih hs.inv ((hs.wellFormed_iff hwf).mpr hq)).mpr hrest

/-- **The run queue over a history.**  From the boot state, over every sequence of creations, IPC calls, exits
    and scheduling decisions, the queue is well formed throughout iff every call is quiet. -/
theorem wellFormedRun_iff (cs : List Call) : WellFormedRun .boot cs ↔ QuietRun .boot cs := by
  refine wellFormedRun_iff_of_inv .boot (Inv.boot.wellFormed_iff.mpr ⟨nodup_nil, ?_⟩) cs
  intro t ht
  cases ht

/-- The state after the calls that are enabled. -/
def runAll (k : Kernel) (cs : List Call) : Kernel := cs.foldl (fun k c => (step k c).getD k) k

/-- **No task is lost.**  After every history each task of the table is in the queue, and none of them has exited. -/
theorem inv_runAll (cs : List Call) : Inv (runAll .boot cs) := by
  refine foldlRecOn cs _ Inv.boot fun k hk c _ => ?_
  cases hstep : step k c with
  | none => exact hk
  | some k' => exact (hk.step hstep).inv

/-- Task 2 waits for a message and task 1 sends one. -/
def wokenOnce : Kernel :=
  runAll .boot [.spawn, .spawn, .ipc (.receive 2), .ipc (.sendAsync 1 2 [7] true true)]

/-- Task 1 exits. -/
def exitedOnce : Kernel := runAll .boot [.spawn, .spawn, .exit 1]

/-- **A message to a waiting task queues it twice, an exit leaves its task queued.** -/
theorem queue_grows :
    wokenOnce.queue = [1, 2, 2] ∧ ¬ WellFormed wokenOnce ∧ exitedOnce.queue = [1, 2] ∧ ¬ WellFormed exitedOnce := by
  have hwoken : wokenOnce.queue = [1, 2, 2] := by decide +kernel
  have hexited : exitedOnce.queue = [1, 2] := by decide +kernel
  refine ⟨hwoken, fun h => ?_, hexited, fun h => ?_⟩
  · have hnodup := h.nodup
    rw [hwoken] at hnodup
    revert hnodup
    decide
  · have hlive := Kernel.live_iff.mpr (h.live 1 (by rw [hexited]; decide))
    revert hlive
    decide +kernel

end Folkering.RunQueue
