/-
  Round robin: what the turns of equal tasks look like.

  Where every queued task is runnable, without a deadline and of one effective priority above 0, the scan takes the
  task at the FRONT of the queue, since only a strictly higher priority replaces the best one, and `rotate` puts it at
  the back (`Turn.call_front`).  So the answers read the queue from its front (`take_answers`), and each window of
  as many calls as there are tasks has every task once (`round_robin`).
-/
import Folkering.Task.Scheduler

namespace Folkering.Sched

open List

/-- One call of `schedule_next`, and what the rest of the kernel did to the tasks since the call before. -/
structure Turn where
  meanwhile : TaskTable → TaskTable
  currentTime : UInt64
  hint : Option Hint

/-- The scheduling decision of a turn. -/
def Turn.call (turn : Turn) (s : Scheduler) (table : TaskTable) : Option Nat × Scheduler × TaskTable :=
  scheduleNext s (turn.meanwhile table) turn.currentTime turn.hint

/-- The answers of successive calls. -/
def answers : Scheduler → TaskTable → List Turn → List (Option Nat)
  | _, _, [] => []
  | s, table, turn :: turns =>
    (turn.call s table).1 :: answers (turn.call s table).2.1 (turn.call s table).2.2 turns

/-- Every queued task is runnable, without a deadline and of the effective priority `p`. -/
def Equals (table : TaskTable) (currentTime : UInt64) (queue : List Nat) (p : Nat) : Prop :=
  ∀ x ∈ queue, ∃ t, table x = some t ∧ t.state = .runnable ∧ t.deadlineMs = none ∧
    effectivePriority currentTime queue.length t = p

/-- At every call the tasks are equals of a priority above 0, and neither hints nor ageing change them. -/
def StayEqual : Scheduler → TaskTable → List Turn → Prop
  | _, _, [] => True
  | s, table, turn :: turns =>
    (adjust s (turn.meanwhile table) turn.currentTime turn.hint).2 = turn.meanwhile table ∧
    (∃ p, 0 < p ∧ Equals (turn.meanwhile table) turn.currentTime s.tasks p) ∧
    StayEqual (turn.call s table).2.1 (turn.call s table).2.2 turns

section

variable {table : TaskTable} {currentTime : UInt64} {queued p : Nat} {t : Task}

theorem scanTask_undated (best : Best) {y : Nat} (hy : table y = some t) (hrun : t.state = .runnable)
    (hdate : t.deadlineMs = none) (hp : effectivePriority currentTime queued t = p) :
    scanTask table currentTime queued best y = best.byPriority y p none := by
  simp only [scanTask, hy, hrun, ne_eq, not_true, if_false, hp, hdate, Best.byDeadline]

/-- The tasks behind the front of the queue do not replace it. -/
theorem foldl_scanTask_equals (best : Best) (hbest : best.priority = p) (queue : List Nat)
    (h : ∀ x ∈ queue, ∃ t, table x = some t ∧ t.state = .runnable ∧ t.deadlineMs = none ∧
      effectivePriority currentTime queued t = p) :
    queue.foldl (scanTask table currentTime queued) best = best := by
  induction queue with
  | nil => rfl
  | cons y queue ih =>
    obtain ⟨t, hy, hrun, hdate, hp⟩ := h y mem_cons_self
    rw [foldl_cons, scanTask_undated best hy hrun hdate hp, Best.byPriority, if_neg (by omega)]
    exact ih fun x hx => h x (mem_cons_of_mem y hx)

theorem scan_front {x : Nat} {queue : List Nat} (hpos : 0 < p) (h : Equals table currentTime (x :: queue) p) :
    (scan table currentTime (x :: queue)).taskId = some x := by
  obtain ⟨t, hx, hrun, hdate, hp⟩ := h x mem_cons_self
  have hfirst : scanTask table currentTime (x :: queue).length Best.start x = ⟨some x, p, u64Max⟩ := by
    rw [scanTask_undated Best.start hx hrun hdate hp, Best.byPriority]
    exact if_pos hpos
  rw [scan, foldl_cons, hfirst,
    foldl_scanTask_equals ⟨some x, p, u64Max⟩ rfl queue fun y hy => h y (mem_cons_of_mem x hy)]

end

/-- **One call among equals**: the answer is the front of the queue, which goes to the back. -/
theorem Turn.call_front {turn : Turn} {s : Scheduler} {table : TaskTable} {x p : Nat} {queue : List Nat}
    (htasks : s.tasks = x :: queue)
    (hsame : (adjust s (turn.meanwhile table) turn.currentTime turn.hint).2 = turn.meanwhile table) (hpos : 0 < p)
    (h : Equals (turn.meanwhile table) turn.currentTime s.tasks p) :
    (turn.call s table).1 = some x ∧ (turn.call s table).2.1.tasks = queue ++ [x] := by
  have hqueue : (adjust s (turn.meanwhile table) turn.currentTime turn.hint).1.tasks = x :: queue :=
    (adjust_tasks s _ _ _).trans htasks
  have hscan : (scan (adjust s (turn.meanwhile table) turn.currentTime turn.hint).2 turn.currentTime
      (adjust s (turn.meanwhile table) turn.currentTime turn.hint).1.tasks).taskId = some x := by
    rw [hsame, hqueue]
    rw [htasks] at h
    exact scan_front hpos h
  simp only [Turn.call, scheduleNext, hscan, true_and]
  rw [hqueue, rotate, if_pos mem_cons_self, erase_cons_head]

/-- The answers read the queue from its front on. -/
theorem take_answers (front back : List Nat) {s : Scheduler} {table : TaskTable} {turns : List Turn}
    (htasks : s.tasks = front ++ back) (hlen : front.length ≤ turns.length) (h : StayEqual s table turns) :
    (answers s table turns).take front.length = front.map some := by
  induction front generalizing back s table turns with
  | nil => rfl
  | cons x front ih =>
    cases turns with
    | nil => cases hlen
    | cons turn turns =>
      obtain ⟨hsame, ⟨p, hpos, hequals⟩, hrest⟩ := h
      obtain ⟨hanswer, hqueue⟩ := Turn.call_front htasks hsame hpos hequals
      have htail := ih (back ++ [x]) (hqueue.trans (append_assoc front back [x]))
        (Nat.le_of_succ_le_succ hlen) hrest
      rw [answers, length_cons, take_succ_cons, htail, hanswer, map_cons]

/-- **Round robin among equals**: in any run of calls at which the queued tasks stay equal, each window of as many
calls as there are tasks answers every task exactly once. -/
theorem round_robin (s : Scheduler) (table : TaskTable) (turns : List Turn) (k : Nat) (hnodup : s.tasks.Nodup)
    (hequal : StayEqual s table turns) (hk : k + s.tasks.length ≤ turns.length) :
    (((answers s table turns).drop k).take s.tasks.length).Perm (s.tasks.map some) ∧
      ∀ x ∈ s.tasks, (((answers s table turns).drop k).take s.tasks.length).count (some x) = 1 := by
  have hperm : (((answers s table turns).drop k).take s.tasks.length).Perm (s.tasks.map some) := by
    -- the start of the window is moved back call by call, while the queue goes round
    clear hnodup
    induction k generalizing s table turns with
    | zero =>
      rw [drop_zero, take_answers s.tasks [] (append_nil _).symm (by omega) hequal]
    | succ k ih =>
      cases htasks : s.tasks with
      | nil => exact List.Perm.refl _
      | cons x queue =>
        cases turns with
        | nil =>
          rw [length_nil] at hk
          omega
        | cons turn turns =>
          obtain ⟨hsame, ⟨p, hpos, hequals⟩, hrest⟩ := hequal
          obtain ⟨_, hqueue⟩ := Turn.call_front htasks hsame hpos hequals
          have hturn : ((turn.call s table).2.1.tasks).Perm (x :: queue) := by
            rw [hqueue]
            exact perm_append_singleton x queue
          have hwindow := ih _ _ turns hrest (by
            rw [hturn.length_eq, ← htasks]
            rw [length_cons] at hk
            omega)
          rw [hturn.length_eq] at hwindow
          exact hwindow.trans (hturn.map some)
  refine ⟨hperm, fun x hx => ?_⟩
  rw [hperm.count_eq]
  exact count_eq_one_of_mem (hnodup.map (Option.some_injective Nat)) (mem_map_of_mem hx)

/-- Two plain tasks. -/
def pairOfEquals : TaskTable := fun x =>
  if x < 2 then some { state := .runnable, priority := 128, basePriority := 128, inheritedPriority := 0
                       deadlineMs := none, lastScheduledMs := 0, semanticPriority := 128, isBackgroundAi := false }
  else none

theorem pairOfEquals_equals {queue : List Nat} (h : ∀ x ∈ queue, x < 2) : Equals pairOfEquals 0 queue 128 :=
  fun x hx => ⟨_, if_pos (h x hx), rfl, rfl, rfl⟩

theorem round_robin_pair :
    (((answers { Scheduler.new with tasks := [0, 1] } pairOfEquals
      (List.replicate 3 ⟨fun _ => pairOfEquals, 0, none⟩)).drop 1).take 2).Perm [some 0, some 1] := by
  refine (round_robin { Scheduler.new with tasks := [0, 1] } pairOfEquals
    (List.replicate 3 ⟨fun _ => pairOfEquals, 0, none⟩) 1 (by decide) ?_ (by decide)).1
  exact ⟨rfl, ⟨128, by decide, pairOfEquals_equals (by decide)⟩, rfl,
    ⟨128, by decide, pairOfEquals_equals (by decide)⟩, rfl,
    ⟨128, by decide, pairOfEquals_equals (by decide)⟩, trivial⟩

end Folkering.Sched
