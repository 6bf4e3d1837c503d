/-
  Ageing: what a long wait does to a priority.

  A runnable task that was not scheduled for more than a second gets `(wait_time / 1000) as u8 * 10` on top of its
  priority, and the sum is cut off at 200.
  * The product is an 8-bit one: from 26 seconds on it no longer fits, and the seconds themselves wrap after 256.
  * The cut-off is applied to EVERY aged task below the real-time priority 255, so a priority from 201 to 254 goes down.
  `ageing_helps_iff`: ageing does what it is for exactly when no aged task is above 200 or has waited 26 seconds.
-/
import Folkering.Task.Scheduler

namespace Folkering.Sched

open Function

/-! ## One task -/

/-- `current_time.saturating_sub(last_scheduled_ms)`. -/
def waitTime (currentTime : UInt64) (t : Task) : Nat := currentTime.toNat - t.lastScheduledMs.toNat

/-- The task is aged. -/
def Due (currentTime : UInt64) (t : Task) : Prop :=
  t.state = .runnable ∧ 1000 < waitTime currentTime t ∧ t.priority < priorityRealtime

instance (currentTime : UInt64) (t : Task) : Decidable (Due currentTime t) := inferInstanceAs (Decidable (_ ∧ _ ∧ _))

/-- The boost of a task, as the code computes it; a task that is not aged has none. -/
def boost (currentTime : UInt64) (t : Task) : UInt8 :=
  if Due currentTime t then UInt8.ofNat (waitTime currentTime t / 1000) * 10 else 0

section

variable {currentTime : UInt64} {t : Task}

theorem boost_toNat (h : Due currentTime t) :
    (boost currentTime t).toNat = waitTime currentTime t / 1000 * 10 % 256 := by
  rw [boost, if_pos h, UInt8.toNat_mul, UInt8.toNat_ofNat', Nat.mod_mul_mod]
  rfl

theorem ageTask_due (h : Due currentTime t) :
    ageTask currentTime t = { t with priority := min (saturatingAdd8 t.priority (boost currentTime t)) 200 } := by
  rw [boost, if_pos h, ageTask, if_neg (not_not.mpr h.1)]
  exact if_pos h.2

theorem ageTask_not_due (h : ¬ Due currentTime t) : ageTask currentTime t = t := by
  unfold ageTask
  split
  · rfl
  next hrun =>
  exact if_neg fun hc => h ⟨not_not.mp hrun, hc⟩

theorem ageTask_priority (h : Due currentTime t) :
    (ageTask currentTime t).priority.toNat = min (t.priority.toNat + (boost currentTime t).toNat) 200 := by
  rw [ageTask_due h]
  have hmin : ∀ a : UInt8, (min a 200).toNat = min a.toNat 200 := by
    intro a
    change (if a ≤ 200 then a else 200).toNat = _
    split
    · next hle => exact (Nat.min_eq_left (UInt8.le_iff_toNat_le.mp hle)).symm
    · next hgt => exact (Nat.min_eq_right (UInt8.le_iff_toNat_le.mp (UInt8.le_of_lt (UInt8.not_le.mp hgt)))).symm
  rw [hmin, saturatingAdd8, UInt8.toNat_ofNat', Nat.mod_eq_of_lt (by omega)]
  omega

/-- An aged task is aged again when it stands in the queue a second time. -/
theorem Due.ageTask (h : Due currentTime t) : Due currentTime (ageTask currentTime t) := by
  have hp := ageTask_priority h
  refine ⟨?_, ?_, UInt8.lt_iff_toNat_lt.mpr ?_⟩
  · rw [ageTask_due h]
    exact h.1
  · rw [ageTask_due h]
    exact h.2.1
  · rw [hp]
    exact Nat.lt_of_le_of_lt (Nat.min_le_right _ _) (by decide)

/-- Ageing, once or several times, does not lower a priority that is not above the cut-off. -/
theorem le_ageTask_iterate (h : Due currentTime t → t.priority ≤ 200) (n : Nat) :
    t.priority ≤ ((ageTask currentTime)^[n] t).priority := by
  induction n generalizing t with
  | zero => exact UInt8.le_refl _
  | succ n ih =>
    rw [iterate_succ_apply]
    by_cases hdue : Due currentTime t
    · have hcut : t.priority.toNat ≤ 200 := UInt8.le_iff_toNat_le.mp (h hdue)
      have hp := ageTask_priority hdue
      refine UInt8.le_trans (UInt8.le_iff_toNat_le.mpr (by omega)) (ih fun _ => UInt8.le_iff_toNat_le.mpr ?_)
      rw [hp]
      exact Nat.min_le_right _ _
    · rw [ageTask_not_due hdue]
      exact ih h

/-- Ageing cuts a priority off, however often it is done. -/
theorem ageTask_iterate_le (h : Due currentTime t) (n : Nat) :
    ((ageTask currentTime)^[n + 1] t).priority.toNat ≤ 200 := by
  have hdue : ∀ n, Due currentTime ((ageTask currentTime)^[n] t) := by
    intro n
    induction n with
    | zero => exact h
    | succ n ih =>
      rw [Function.iterate_succ_apply']
      exact ih.ageTask
  rw [Function.iterate_succ_apply', ageTask_priority (hdue n)]
  exact Nat.min_le_right _ _

end

/-! ## The queue -/

theorem changeQueued_apply (queue : List Nat) (f : Task → Task) (table : TaskTable) (taskId : Nat) :
    changeQueued queue f table taskId = (table taskId).map (f^[queue.count taskId]) := by
  induction queue generalizing table with
  | nil => simp [changeQueued]
  | cons x queue ih =>
    have hcons : changeQueued (x :: queue) f table =
        changeQueued queue f (update table x ((table x).map f)) := rfl
    rw [hcons, ih]
    by_cases hx : x = taskId
    · rw [hx, update_self, Option.map_map, List.count_cons_self, Function.iterate_succ]
    · rw [update_of_ne (Ne.symm hx), List.count_cons_of_ne hx]

/-- **Ageing only helps**: no priority goes down, no boost overflows, and a longer wait never has the smaller boost. -/
structure AgeingHelps (queue : List Nat) (currentTime : UInt64) (table : TaskTable) : Prop where
  keeps : ∀ taskId t t', table taskId = some t → ageTasks queue currentTime table taskId = some t' →
    t.priority ≤ t'.priority
  exact : ∀ taskId ∈ queue, ∀ t, table taskId = some t → Due currentTime t →
    waitTime currentTime t / 1000 % 256 * 10 < 256
  longer : ∀ taskId ∈ queue, ∀ t, table taskId = some t → ∀ later, t.lastScheduledMs ≤ later →
    boost currentTime { t with lastScheduledMs := later } ≤ boost currentTime t

section

variable {currentTime : UInt64} {t : Task}

/-- Below 26 seconds the boost grows with the wait. -/
theorem boost_mono (hwait : waitTime currentTime t < 26000) {later : UInt64} (hle : t.lastScheduledMs ≤ later) :
    boost currentTime { t with lastScheduledMs := later } ≤ boost currentTime t := by
  have hless : waitTime currentTime { t with lastScheduledMs := later } ≤ waitTime currentTime t :=
    Nat.sub_le_sub_left (UInt64.le_iff_toNat_le.mp hle) _
  by_cases hdue : Due currentTime { t with lastScheduledMs := later }
  · have ht : Due currentTime t := ⟨hdue.1, Nat.lt_of_lt_of_le hdue.2.1 hless, hdue.2.2⟩
    have hsec : waitTime currentTime { t with lastScheduledMs := later } / 1000 ≤ waitTime currentTime t / 1000 :=
      Nat.div_le_div_right hless
    rw [UInt8.le_iff_toNat_le, boost_toNat hdue, boost_toNat ht, Nat.mod_eq_of_lt (by omega), Nat.mod_eq_of_lt (by omega)]
    exact Nat.mul_le_mul_right 10 hsec
  · rw [boost, if_neg hdue]
    exact UInt8.zero_le

/-- From 256 seconds on a wait whose boost fits has a smaller one than a wait of 51 seconds, whose boost wraps to 254. -/
theorem boost_drops (hdue : Due currentTime t) (hwait : 26000 ≤ waitTime currentTime t)
    (hexact : waitTime currentTime t / 1000 % 256 * 10 < 256) :
    ∃ later, t.lastScheduledMs ≤ later ∧ boost currentTime t < boost currentTime { t with lastScheduledMs := later } := by
  have hnow := currentTime.toNat_lt
  have hw : currentTime.toNat - t.lastScheduledMs.toNat = waitTime currentTime t := rfl
  have hlater : (UInt64.ofNat (currentTime.toNat - 51000)).toNat = currentTime.toNat - 51000 := by
    rw [UInt64.toNat_ofNat', Nat.mod_eq_of_lt (by omega)]
  have hwait' : waitTime currentTime { t with lastScheduledMs := .ofNat (currentTime.toNat - 51000) } = 51000 := by
    rw [waitTime, hlater]
    omega
  have hdue' : Due currentTime { t with lastScheduledMs := .ofNat (currentTime.toNat - 51000) } :=
    ⟨hdue.1, by rw [hwait']; decide, hdue.2.2⟩
  refine ⟨.ofNat (currentTime.toNat - 51000), UInt64.le_iff_toNat_le.mpr ?_, UInt8.lt_iff_toNat_lt.mpr ?_⟩
  · rw [hlater]
    omega
  · rw [boost_toNat hdue, boost_toNat hdue', hwait']
    omega

end

/-- **Ageing only helps exactly when no aged task is above 200 or has waited 26 seconds.** -/
theorem ageing_helps_iff (queue : List Nat) (currentTime : UInt64) (table : TaskTable) :
    AgeingHelps queue currentTime table ↔
      ∀ taskId ∈ queue, ∀ t, table taskId = some t → Due currentTime t →
        t.priority ≤ 200 ∧ waitTime currentTime t < 26000 := by
  constructor
  · intro h taskId hmem t ht hdue
    constructor
    · obtain ⟨n, hn⟩ := Nat.exists_eq_succ_of_ne_zero (List.count_pos_iff.mpr hmem).ne'
      have hage : ageTasks queue currentTime table taskId = some ((ageTask currentTime)^[n + 1] t) := by
        rw [ageTasks, changeQueued_apply, ht, hn]
        rfl
      have hkeep := UInt8.le_iff_toNat_le.mp (h.keeps taskId t _ ht hage)
      exact UInt8.le_iff_toNat_le.mpr (Nat.le_trans hkeep (ageTask_iterate_le hdue n))
    · by_contra hlong
      obtain ⟨later, hle, hlt⟩ := boost_drops hdue (Nat.not_lt.mp hlong) (h.exact taskId hmem t ht hdue)
      exact absurd (h.longer taskId hmem t ht later hle) (UInt8.not_le.mpr hlt)
  · intro h
    refine ⟨fun taskId t t' ht ht' => ?_, fun taskId hmem t ht hdue => ?_, fun taskId hmem t ht later hle => ?_⟩
    · rw [ageTasks, changeQueued_apply, ht] at ht'
      cases ht'
      by_cases hmem : taskId ∈ queue
      · exact le_ageTask_iterate (fun hdue => (h taskId hmem t ht hdue).1) _
      · rw [List.count_eq_zero_of_not_mem hmem]
        exact UInt8.le_refl _
    · have hwait := (h taskId hmem t ht hdue).2
      omega
    · by_cases hwait : waitTime currentTime t < 26000
      · exact boost_mono hwait hle
      · -- a task that is not aged is not aged after a shorter wait either
        have hnot : ¬ Due currentTime { t with lastScheduledMs := later } := by
          intro hdue
          have hless : waitTime currentTime { t with lastScheduledMs := later } ≤ waitTime currentTime t :=
            Nat.sub_le_sub_left (UInt64.le_iff_toNat_le.mp hle) _
          exact hwait (h taskId hmem t ht ⟨hdue.1, Nat.lt_of_lt_of_le hdue.2.1 hless, hdue.2.2⟩).2
        rw [boost, if_neg hnot]
        exact UInt8.zero_le

/-- A runnable task of the given priority that was last scheduled at time 0. -/
def waiting (priority : UInt8) : Task :=
  { state := .runnable, priority := priority, basePriority := priority, inheritedPriority := 0, deadlineMs := none
    lastScheduledMs := 0, semanticPriority := 128, isBackgroundAi := false }

/-- Priority 220 is lowered to 200, and after 26 seconds the boost is 4 instead of 260. -/
theorem ageing_lowers :
    (ageTask 2000 (waiting 220)).priority = 200 ∧ boost 26000 (waiting 128) = 4 ∧
    ¬ AgeingHelps [1] 2000 (fun _ => some (waiting 220)) := by
  refine ⟨by decide, by decide, fun h => ?_⟩
  exact absurd (h.keeps 1 (waiting 220) (ageTask 2000 (waiting 220)) rfl rfl) (by decide)

end Folkering.Sched
