/-
  The scheduler: which queued task runs next.

  `schedule_next` first lets the brain hints and the ageing rule change priorities, then scans the run queue
  once.  The scan computes an EFFECTIVE PRIORITY for every runnable task and keeps three values: the best
  task, its priority and the best deadline.

  1. **Program** — `scan`, the fold over the queue, and `scheduleNext` around it.
  2. **Specification** — `Right`: the answer is a runnable queued task of maximal effective priority, with no
     earlier deadline passed over, and no answer means that nothing is runnable.
  3. **The crux** (`scan_inv`) — one induction over the queue with the invariant `Scanned`, which holds for
     EVERY start of the queue: the three values belong together.  The best deadline may be left over from a
     task of lower priority, and the invariant says what is still true of it then.
  4. **Where it fails** — the best priority starts at 0, so a task of effective priority 0 is only taken
     through the deadline rule (`scheduleNext_right_iff`).
-/
import Folkering.Ipc.Model

namespace Folkering.Sched

open Option

open Ipc (TaskState)

/-! ## Tasks and hints -/

/-- The fields of a task that scheduling reads. -/
structure Task where
  state : TaskState
  priority : UInt8
  basePriority : UInt8
  /-- the priority of a task that waits for this one -/
  inheritedPriority : UInt8
  deadlineMs : Option UInt64
  lastScheduledMs : UInt64
  /-- 128 is neutral -/
  semanticPriority : UInt8
  isBackgroundAi : Bool
deriving Repr, DecidableEq

/-- The tasks by their number. -/
abbrev TaskTable := Nat → Option Task

/-- The priority of urgent tasks. -/
def priorityHigh : UInt8 := 192
/-- The highest priority. -/
def priorityRealtime : UInt8 := 255

/-- The workloads a hint can name. -/
inductive IntentType where
  | idle
  | gaming
  | coding
  | rendering
  | compiling
  | videoEncoding
  | mlTraining
  | browsing
  | videoPlayback
deriving Repr, DecidableEq

/-- What the scheduler reads of a brain hint. -/
structure Hint where
  currentIntent : IntentType
  confidence : UInt8
deriving Repr, DecidableEq

/-- The run queue and what is known of the workload. -/
structure Scheduler where
  /-- the run queue -/
  tasks : List Nat
  lastHintCheck : UInt64
  hintCheckInterval : UInt64
  currentWorkload : IntentType
  agingIntervalMs : UInt64
  lastAgingMs : UInt64
deriving Repr, DecidableEq

/-- No task, no hint. -/
def Scheduler.new : Scheduler :=
  { tasks := [], lastHintCheck := 0, hintCheckInterval := 10, currentWorkload := .idle
    agingIntervalMs := 100, lastAgingMs := 0 }

/-- A task joins the queue at its end. -/
def Scheduler.addTask (s : Scheduler) (taskId : Nat) : Scheduler := { s with tasks := s.tasks ++ [taskId] }

/-! ## Hints and ageing -/

/-- Changes every queued task that is in the table. -/
def changeQueued (queue : List Nat) (f : Task → Task) (table : TaskTable) : TaskTable :=
  queue.foldl (fun table taskId => Function.update table taskId ((table taskId).map f)) table

/-- `saturating_add` on bytes. -/
def saturatingAdd8 (a b : UInt8) : UInt8 := UInt8.ofNat (min (a.toNat + b.toNat) 255)

/-- A confident hint moves the priorities of the queued tasks. -/
def adjustPrioritiesForWorkload (queue : List Nat) (hint : Hint) (table : TaskTable) : TaskTable :=
  if hint.confidence < 180 then table
  else match hint.currentIntent with
    | .compiling | .mlTraining =>
      changeQueued queue (fun t => { t with priority := saturatingAdd8 t.basePriority 30 }) table
    | .gaming => changeQueued queue (fun t => { t with priority := priorityHigh }) table
    | .idle => changeQueued queue (fun t => { t with priority := t.basePriority }) table
    | _ => table

/-- Ageing of one task; the boost is computed in a `u8`, which wraps. -/
def ageTask (currentTime : UInt64) (t : Task) : Task :=
  if t.state ≠ .runnable then t
  else
    let waitTime := currentTime.toNat - t.lastScheduledMs.toNat
    if 1000 < waitTime ∧ t.priority < priorityRealtime then
      let boost := UInt8.ofNat (waitTime / 1000) * 10
      { t with priority := min (saturatingAdd8 t.priority boost) 200 }
    else t

/-- Queued tasks that have waited gain priority. -/
def ageTasks (queue : List Nat) (currentTime : UInt64) (table : TaskTable) : TaskTable :=
  changeQueued queue (ageTask currentTime) table

/-- Take over a hint if there is one. -/
def checkBrainHints (s : Scheduler) (table : TaskTable) : Option Hint → Scheduler × TaskTable
  | some hint =>
    ({ s with currentWorkload := hint.currentIntent }, adjustPrioritiesForWorkload s.tasks hint table)
  | none => (s, table)

/-- The part of `schedule_next` before the scan: hints every 10 ms, ageing every 100 ms. -/
def adjust (s : Scheduler) (table : TaskTable) (currentTime : UInt64) (hint : Option Hint) :
    Scheduler × TaskTable :=
  let r := if s.hintCheckInterval ≤ currentTime - s.lastHintCheck then
    checkBrainHints { s with lastHintCheck := currentTime } table hint else (s, table)
  if r.1.agingIntervalMs ≤ currentTime - r.1.lastAgingMs then
    ({ r.1 with lastAgingMs := currentTime }, ageTasks r.1.tasks currentTime r.2)
  else r

/-! ## The scan -/

/-- The largest priority of the scan. -/
def u16Max : Nat := 2 ^ 16 - 1
/-- No deadline. -/
def u64Max : UInt64 := 0xFFFFFFFFFFFFFFFF

/-- The priority before the deadline boost, in a queue of `queued` tasks. -/
def undatedPriority (queued : Nat) (t : Task) : Nat :=
  let p := if t.priority < t.inheritedPriority then t.inheritedPriority.toNat else t.priority.toNat
  -- the semantic adjustment is signed and cut off at 0
  let p := p + t.semanticPriority.toNat - 128
  if t.isBackgroundAi ∧ 2 < queued then p - 50 else p

/-- The priority the scan compares, with the deadline taken in. -/
def effectivePriority (currentTime : UInt64) (queued : Nat) (t : Task) : Nat :=
  let p := undatedPriority queued t
  match t.deadlineMs with
  | none => p
  | some deadline =>
    let timeToDeadline := deadline.toNat - currentTime.toNat
    if timeToDeadline < 10 then u16Max
    else if timeToDeadline < 50 then min (p + 100) u16Max
    else if timeToDeadline < 200 then min (p + 50) u16Max
    else p

/-- The three running values of the scan. -/
structure Best where
  taskId : Option Nat
  priority : Nat
  deadline : UInt64
deriving Repr, DecidableEq

/-- No task chosen. -/
def Best.start : Best := { taskId := none, priority := 0, deadline := u64Max }

/-- The deadline rule: an equal priority and an earlier deadline. -/
def Best.byDeadline (best : Best) (taskId p : Nat) : Option UInt64 → Best
  | some deadline =>
    if p = best.priority ∧ deadline < best.deadline then
      { best with deadline := deadline, taskId := some taskId }
    else best
  | none => best

/-- The priority rule; a task without a deadline leaves the best deadline as it is. -/
def Best.byPriority (best : Best) (taskId p : Nat) (deadline : Option UInt64) : Best :=
  if best.priority < p then
    { taskId := some taskId, priority := p, deadline := deadline.getD best.deadline }
  else best

/-- One task against the best so far. -/
def scanTask (table : TaskTable) (currentTime : UInt64) (queued : Nat) (best : Best) (taskId : Nat) : Best :=
  match table taskId with
  | none => best
  | some t =>
    if t.state ≠ .runnable then best
    else
      let p := effectivePriority currentTime queued t
      (best.byDeadline taskId p t.deadlineMs).byPriority taskId p t.deadlineMs

/-- The best task of the queue. -/
def scan (table : TaskTable) (currentTime : UInt64) (queue : List Nat) : Best :=
  queue.foldl (scanTask table currentTime queue.length) .start

/-- Moves the selected task to the back of the queue. -/
def rotate (queue : List Nat) (taskId : Nat) : List Nat :=
  if taskId ∈ queue then queue.erase taskId ++ [taskId] else queue

/-- Age, take hints, choose, and move the chosen task to the end. -/
def scheduleNext (s : Scheduler) (table : TaskTable) (currentTime : UInt64) (hint : Option Hint) :
    Option Nat × Scheduler × TaskTable :=
  let (s, table) := adjust s table currentTime hint
  match (scan table currentTime s.tasks).taskId with
  | none => (none, s, table)
  | some taskId =>
    (some taskId, { s with tasks := rotate s.tasks taskId },
      Function.update table taskId ((table taskId).map fun t => { t with lastScheduledMs := currentTime }))

/-! ## What the answer should be -/

section

variable (table : TaskTable) (currentTime : UInt64)

/-- The task is queued and runnable. -/
def Ready (queue : List Nat) (taskId : Nat) (t : Task) : Prop :=
  taskId ∈ queue ∧ table taskId = some t ∧ t.state = .runnable

/-- **The right task.** -/
structure Right (queue : List Nat) (answer : Option Nat) : Prop where
  idle : answer = none → ∀ x t, ¬ Ready table queue x t
  picked : ∀ x, answer = some x → ∃ t, Ready table queue x t ∧
    (∀ y u, Ready table queue y u →
      effectivePriority currentTime queue.length u ≤ effectivePriority currentTime queue.length t) ∧
    ∀ d, t.deadlineMs = some d → ∀ y u e, Ready table queue y u →
      effectivePriority currentTime queue.length u = effectivePriority currentTime queue.length t →
      u.deadlineMs = some e → d ≤ e

/-- A ready task that the scan can take: its effective priority is above 0, or it has a deadline. -/
def Takeable (queue : List Nat) : Prop :=
  ∃ x t, Ready table queue x t ∧
    (0 < effectivePriority currentTime queue.length t ∨ ∃ d, t.deadlineMs = some d ∧ d < u64Max)

/-! ## The scan invariant -/

/-- A ready task has a deadline that is not the largest value. -/
def Dated (seen : List Nat) : Prop := ∃ x t d, Ready table seen x t ∧ t.deadlineMs = some d ∧ d < u64Max

/-- What the running values say about the part of the queue that was scanned, in a queue of `queued`. -/
structure Scanned (queued : Nat) (seen : List Nat) (best : Best) : Prop where
  le : ∀ x t, Ready table seen x t → effectivePriority currentTime queued t ≤ best.priority
  deadline : ∀ x t d, Ready table seen x t → effectivePriority currentTime queued t = best.priority →
    t.deadlineMs = some d → best.deadline ≤ d
  unset : best.taskId = none → best = .start
  set : ∀ x, best.taskId = some x → ∃ t, Ready table seen x t ∧
    effectivePriority currentTime queued t = best.priority ∧
    ∀ d, t.deadlineMs = some d → d = best.deadline
  taken : ∀ x, best.taskId = some x → 0 < best.priority ∨ Dated table seen

end

section

variable {table : TaskTable} {currentTime : UInt64} {queued : Nat}

theorem Ready.mono {seen seen' : List Nat} {x : Nat} {t : Task} (h : Ready table seen x t)
    (hsub : ∀ y ∈ seen, y ∈ seen') : Ready table seen' x t :=
  ⟨hsub x h.1, h.2⟩

variable {seen : List Nat}

theorem Dated.mono (y : Nat) (h : Dated table seen) : Dated table (seen ++ [y]) := by
  obtain ⟨x, t, d, hready, hd⟩ := h
  exact ⟨x, t, d, hready.mono (fun z hz => List.mem_append_left _ hz), hd⟩

theorem ready_append {x y : Nat} {t : Task} (h : Ready table (seen ++ [y]) x t) :
    Ready table seen x t ∨ (x = y ∧ table y = some t ∧ t.state = .runnable) := by
  obtain ⟨hmem, htask⟩ := h
  rcases List.mem_append.mp hmem with hseen | hy
  · exact Or.inl ⟨hseen, htask⟩
  · obtain rfl : x = y := List.mem_singleton.mp hy
    exact Or.inr ⟨rfl, htask⟩

variable {best : Best}

/-- A task that is not ready, or no better, changes nothing. -/
theorem Scanned.keep (h : Scanned table currentTime queued seen best) {y : Nat}
    (hy : ∀ t, table y = some t → t.state = .runnable → effectivePriority currentTime queued t ≤ best.priority ∧
      (effectivePriority currentTime queued t = best.priority → ∀ d, t.deadlineMs = some d → best.deadline ≤ d)) :
    Scanned table currentTime queued (seen ++ [y]) best := by
  refine ⟨fun x t hx => ?_, fun x t d hx hp hd => ?_, h.unset, fun x hx => ?_,
    fun x hx => (h.taken x hx).imp_right (Dated.mono y)⟩
  · rcases ready_append hx with hx | ⟨rfl, ht, hrun⟩
    · exact h.le x t hx
    · exact (hy t ht hrun).1
  · rcases ready_append hx with hx | ⟨rfl, ht, hrun⟩
    · exact h.deadline x t d hx hp hd
    · exact (hy t ht hrun).2 hp d hd
  · obtain ⟨t, hready, hrest⟩ := h.set x hx
    exact ⟨t, hready.mono (fun z hz => List.mem_append_left _ hz), hrest⟩

/-- A better task becomes the best one, with a deadline that is its own if it has one. -/
theorem Scanned.replace (h : Scanned table currentTime queued seen best) {y p : Nat}
    {t : Task} {deadline : UInt64} (hready : Ready table (seen ++ [y]) y t)
    (hp : effectivePriority currentTime queued t = p) (hle : best.priority ≤ p)
    (htie : best.priority = p → deadline ≤ best.deadline) (hown : ∀ d, t.deadlineMs = some d → d = deadline)
    (htaken : 0 < p ∨ Dated table (seen ++ [y])) :
    Scanned table currentTime queued (seen ++ [y]) { taskId := some y, priority := p, deadline := deadline } := by
  have hcase : ∀ x u, Ready table (seen ++ [y]) x u → Ready table seen x u ∨ u = t := by
    intro x u hx
    rcases ready_append hx with hx | ⟨_, hu, _⟩
    · exact Or.inl hx
    · rw [hready.2.1] at hu
      exact Or.inr (some.inj hu.symm)
  refine ⟨fun x u hx => ?_, fun x u d hx hu hd => ?_, (fun hnone => by cases hnone), fun x hx => ?_, fun _ _ => htaken⟩
  · rcases hcase x u hx with hx | rfl
    · exact (h.le x u hx).trans hle
    · exact Nat.le_of_eq hp
  · rcases hcase x u hx with hx | rfl
    · -- a task of the new priority that was scanned before had the best priority then
      change effectivePriority currentTime queued u = p at hu
      have hbest : best.priority = p := Nat.le_antisymm hle (hu ▸ h.le x u hx)
      exact UInt64.le_trans (htie hbest) (h.deadline x u d hx (hu.trans hbest.symm) hd)
    · exact UInt64.le_of_eq (hown d hd).symm
  · obtain rfl : y = x := some.inj hx
    exact ⟨t, hready, hp, hown⟩

/-- **One round of the scan** keeps the running values together. -/
theorem Scanned.take (h : Scanned table currentTime queued seen best) {y : Nat}
    {t : Task} (hy : table y = some t) (hrun : t.state = .runnable) : Scanned table currentTime queued (seen ++ [y])
      ((best.byDeadline y (effectivePriority currentTime queued t) t.deadlineMs).byPriority y
        (effectivePriority currentTime queued t) t.deadlineMs) := by
  have hready : Ready table (seen ++ [y]) y t :=
    ⟨List.mem_append_right _ (List.mem_singleton_self y), hy, hrun⟩
  generalize hp : effectivePriority currentTime queued t = p
  by_cases hearlier : p = best.priority ∧ ∃ e, t.deadlineMs = some e ∧ e < best.deadline
  · -- an equal priority and an earlier deadline
    obtain ⟨heq, e, hd, hlt⟩ := hearlier
    rw [hd, Best.byDeadline, if_pos ⟨heq, hlt⟩, Best.byPriority, if_neg (by simp only; omega), ← heq]
    have hdated : e < u64Max := UInt64.lt_of_lt_of_le hlt (UInt64.le_iff_toNat_le.mpr
      (Nat.le_of_lt_succ best.deadline.toNat_lt))
    refine h.replace hready hp heq.ge (fun _ => UInt64.le_of_lt hlt) (fun d hud => ?_)
      (Or.inr ⟨y, t, e, hready, hd, hdated⟩)
    rw [hd] at hud
    exact some.inj hud.symm
  · -- the deadline rule does not apply
    have hdl : best.byDeadline y p t.deadlineMs = best := by
      unfold Best.byDeadline
      split
      · next e hd => exact if_neg fun hc => hearlier ⟨hc.1, e, hd, hc.2⟩
      · rfl
    rw [hdl, Best.byPriority]
    by_cases hlt : best.priority < p
    · rw [if_pos hlt]
      refine h.replace hready hp (Nat.le_of_lt hlt) (fun heq => by omega) (fun d hd => ?_)
        (Or.inl (Nat.zero_lt_of_lt hlt))
      rw [hd, getD_some]
    · rw [if_neg hlt]
      refine h.keep fun u hu _ => ?_
      obtain rfl : t = u := some.inj (hy.symm.trans hu)
      rw [hp]
      exact ⟨Nat.not_lt.mp hlt, fun heq d hd => UInt64.not_lt.mp fun hc => hearlier ⟨heq, d, hd, hc⟩⟩

theorem Scanned.scanTask (h : Scanned table currentTime queued seen best) (y : Nat) :
    Scanned table currentTime queued (seen ++ [y]) (Sched.scanTask table currentTime queued best y) := by
  unfold Sched.scanTask
  cases hy : table y with
  | none =>
    refine h.keep fun t ht => ?_
    rw [hy] at ht
    cases ht
  | some t =>
    by_cases hrun : t.state = .runnable
    · simp only [hrun, ne_eq, not_true_eq_false, if_false]
      exact h.take hy hrun
    · simp only [ne_eq, hrun, not_false_eq_true, if_true]
      refine h.keep fun u hu hstate => ?_
      rw [hy] at hu
      cases hu
      exact absurd hstate hrun

/-- **The scan**, from any point of the queue on. -/
theorem scan_inv (queue seen : List Nat) {best : Best} (h : Scanned table currentTime queued seen best) :
    Scanned table currentTime queued (seen ++ queue)
      (queue.foldl (Sched.scanTask table currentTime queued) best) := by
  induction queue generalizing seen best with
  | nil => simpa using h
  | cons y rest ih =>
    have hnext := ih (seen ++ [y]) (h.scanTask y)
    rwa [List.append_assoc, List.singleton_append] at hnext

theorem Scanned.start : Scanned table currentTime queued [] Best.start := by
  refine ⟨?_, ?_, fun _ => rfl, ?_, ?_⟩
  · rintro x t ⟨hmem, _⟩
    cases hmem
  · rintro x t d ⟨hmem, _⟩
    cases hmem
  · rintro x ⟨⟩
  · rintro x ⟨⟩

theorem scanned_scan (table : TaskTable) (currentTime : UInt64) (queue : List Nat) :
    Scanned table currentTime queue.length queue (scan table currentTime queue) :=
  scan_inv queue [] Scanned.start

/-- What the scan answers is right, except that it may answer nothing. -/
theorem right_of_isSome {queue : List Nat} {x : Nat} (h : (scan table currentTime queue).taskId = some x) :
    Right table currentTime queue (some x) := by
  have hscan := scanned_scan table currentTime queue
  refine ⟨(fun hnone => by cases hnone), ?_⟩
  rintro _ ⟨⟩
  obtain ⟨t, hready, hp, hdeadline⟩ := hscan.set x h
  refine ⟨t, hready, ?_, ?_⟩
  · intro y u hu
    rw [hp]
    exact hscan.le y u hu
  · intro d hd y u e hu hpu he
    rw [hdeadline d hd]
    exact hscan.deadline y u e hu (hpu.trans hp) he

/-- The scan answers as soon as there is a task it can take. -/
theorem isSome_of_takeable {queue : List Nat} (h : Takeable table currentTime queue) :
    ∃ x, (scan table currentTime queue).taskId = some x := by
  have hscan := scanned_scan table currentTime queue
  cases hanswer : (scan table currentTime queue).taskId with
  | some x => exact ⟨x, rfl⟩
  | none =>
    exfalso
    have hstart := hscan.unset hanswer
    obtain ⟨x, t, hready, hp | ⟨d, hd, hlt⟩⟩ := h
    · have hle := hscan.le x t hready
      rw [hstart] at hle
      change effectivePriority currentTime queue.length t ≤ 0 at hle
      omega
    · -- its effective priority is the starting one, so the deadline rule has seen it
      have hle := hscan.le x t hready
      have hdl := hscan.deadline x t d hready
      rw [hstart] at hle hdl
      have hmax : u64Max ≤ d := hdl (Nat.le_zero.mp hle) hd
      exact UInt64.not_lt.mpr hmax hlt

/-- The scan answers only if there is a task it can take. -/
theorem takeable_of_isSome {queue : List Nat} {x : Nat} (h : (scan table currentTime queue).taskId = some x) :
    Takeable table currentTime queue := by
  have hscan := scanned_scan table currentTime queue
  rcases hscan.taken x h with hpos | ⟨y, t, d, hready, hd⟩
  · obtain ⟨t, hready, hp, _⟩ := hscan.set x h
    exact ⟨x, t, hready, Or.inl (by omega)⟩
  · exact ⟨y, t, hready, Or.inr ⟨d, hd⟩⟩

end

/-! ## The scheduler -/

theorem scheduleNext_answer (s : Scheduler) (table : TaskTable) (currentTime : UInt64) (hint : Option Hint) :
    (scheduleNext s table currentTime hint).1 =
      (scan (adjust s table currentTime hint).2 currentTime (adjust s table currentTime hint).1.tasks).taskId := by
  unfold scheduleNext
  cases hanswer : (scan (adjust s table currentTime hint).2 currentTime
    (adjust s table currentTime hint).1.tasks).taskId with
  | none => simp only [hanswer]
  | some x => simp only [hanswer]

theorem adjust_tasks (s : Scheduler) (table : TaskTable) (currentTime : UInt64) (hint : Option Hint) :
    (adjust s table currentTime hint).1.tasks = s.tasks := by
  have hhints : ∀ s : Scheduler, (checkBrainHints s table hint).1.tasks = s.tasks := by
    intro s
    cases hint <;> rfl
  simp only [adjust]
  split <;> split <;> simp only [hhints]

/-- **The scheduler's choice.**  For every queue and task table, the answer of `schedule_next` is right, with
    the priorities that the scan reads, iff some ready task has an effective priority above 0 or a deadline
    below the largest value, or no task is ready at all. -/
theorem scheduleNext_right_iff (s : Scheduler) (table : TaskTable) (currentTime : UInt64) (hint : Option Hint) :
    Right (adjust s table currentTime hint).2 currentTime s.tasks (scheduleNext s table currentTime hint).1 ↔
      ((∃ x t, Ready (adjust s table currentTime hint).2 s.tasks x t) →
        Takeable (adjust s table currentTime hint).2 currentTime s.tasks) := by
  rw [scheduleNext_answer, adjust_tasks]
  constructor
  · rintro hright ⟨x, t, hready⟩
    cases hanswer : (scan (adjust s table currentTime hint).2 currentTime s.tasks).taskId with
    | none =>
      rw [hanswer] at hright
      exact absurd hready (hright.idle rfl x t)
    | some y => exact takeable_of_isSome hanswer
  · intro htake
    cases hanswer : (scan (adjust s table currentTime hint).2 currentTime s.tasks).taskId with
    | some y => exact right_of_isSome hanswer
    | none =>
      refine ⟨?_, fun x hx => by cases hx⟩
      intro _ x t hready
      obtain ⟨y, hy⟩ := isSome_of_takeable (htake ⟨x, t, hready⟩)
      rw [hanswer] at hy
      cases hy

/-- A runnable task of priority 0. -/
def idleTask : Task :=
  { state := .runnable, priority := 0, basePriority := 0, inheritedPriority := 0, deadlineMs := none
    lastScheduledMs := 0, semanticPriority := 128, isBackgroundAi := false }

/-- **A lone task of effective priority 0 is never scheduled.** -/
theorem scheduleNext_misses_idle :
    (scheduleNext (Scheduler.new.addTask 1) (fun t => if t = 1 then some idleTask else none) 5 none).1 = none ∧
    Ready (adjust (Scheduler.new.addTask 1) (fun t => if t = 1 then some idleTask else none) 5 none).2
      [1] 1 idleTask := by
  refine ⟨by decide +kernel, List.mem_singleton_self 1, ?_, rfl⟩
  decide +kernel

end Folkering.Sched
