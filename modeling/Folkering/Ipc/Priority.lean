/-
  Priority inheritance (kernel/src/ipc/send.rs, kernel/src/ipc/receive.rs).

  A blocking send raises the target's inherited priority to the sender's; a successful reply sets that of the
  replying task back to 0.  It is ONE number for all senders that wait, so a reply to one of them takes the donation of
  the others away.  `covered_along_iff`: along a run every server is at least as urgent as each task that waits for it,
  exactly when no server replies while another task waits for it that is more urgent than the server itself.
-/
import Folkering.Ipc.Waiting

namespace Folkering.Ipc

open Function Option

/-! ## Priorities -/

/-- The system with each task's own and inherited priority. -/
structure Ranked where
  world : World
  priority : Nat → Nat
  inherited : Nat → Nat

namespace Ranked

/-- A sender that blocks lends its priority; a reply gives back what was lent. -/
def inheritedAfter (r : Ranked) : Act → Nat → Nat
  | .send t target payload permitted transferred =>
    match (r.world.sys.ipcSend t target payload permitted transferred).1 with
    | .ok _ =>
      if r.inherited target < r.priority t then update r.inherited target (r.priority t) else r.inherited
    | .error _ => r.inherited
  | a =>
    match completes r.world.sys a with
    | some (_, u, _) => update r.inherited u 0
    | none => r.inherited

/-- One act, with the inherited priorities. -/
def next (r : Ranked) (a : Act) : Option Ranked :=
  (Ipc.next r.world a).map fun w => { r with world := w, inherited := r.inheritedAfter a }

/-- What the scheduler compares. -/
def effective (r : Ranked) (t : Nat) : Nat := max (r.priority t) (r.inherited t)

/-- **Inheritance covers all waiters**: nobody waits for a less urgent task. -/
def Covers (r : Ranked) : Prop := ∀ t S, r.world.sys.WaitsFor t S → r.priority t ≤ r.effective S

/-- If the act is a reply that frees a task, whoever else waits for the replying task is not more urgent than it is
    by itself. -/
def LeavesCovered (r : Ranked) (a : Act) : Prop :=
  ∀ t u id, completes r.world.sys a = some (t, u, id) →
    ∀ t', t' ≠ t → r.world.sys.WaitsFor t' u → r.priority t' ≤ r.priority u

/-- `Covers` in every state of the run; an act that is not enabled ends it. -/
def CoveredAlong (r : Ranked) : List Act → Prop
  | [] => r.Covers
  | a :: as => r.Covers ∧ match r.next a with
    | some r' => CoveredAlong r' as
    | none => True

/-- `LeavesCovered` at every act of the run. -/
def LeavesCoveredAlong (r : Ranked) : List Act → Prop
  | [] => True
  | a :: as => match r.next a with
    | some r' => r.LeavesCovered a ∧ LeavesCoveredAlong r' as
    | none => True

/-- The tasks that exist, with their priorities, before any message. -/
def boot (existing : Nat → Bool) (priority : Nat → Nat) : Ranked :=
  { world := .boot existing, priority, inherited := fun _ => 0 }

end Ranked

/-! ## One act -/

/-- The act is a blocking send that put its message into the queue. -/
def Act.Sends (s : Sys) : Act → Nat → Nat → Prop
  | .send t target payload permitted transferred, t', target' =>
    t' = t ∧ target' = target ∧ ∃ msg, (s.ipcSend t target payload permitted transferred).1 = .ok msg
  | _, _, _ => False

/-- **The step lemma for waiting**: a task waits after an act only if it did before, or if the act is its send. -/
theorem waitsFor_sysAfter {s : Sys} (hs : s.Stamped) (a : Act) :
    (a.sysAfter s).Stamped ∧ ∀ t S, (a.sysAfter s).WaitsFor t S → s.WaitsFor t S ∨ a.Sends s t S := by
  have hcalm : ∀ {s'}, s.Calmer s' → s'.Stamped ∧ ∀ t S, s'.WaitsFor t S → s.WaitsFor t S ∨ a.Sends s t S :=
    fun h => ⟨h.stamped hs, fun t S hw => .inl (h.waitsFor hs hw)⟩
  cases a with
  | send t target payload permitted transferred =>
    rcases s.enqueue_cases t target .request payload permitted transferred with
      ⟨e, s', he, hs'⟩ | ⟨task, q, ht, hq, he⟩
    · have hres : Act.sysAfter s (.send t target payload permitted transferred) = s' := by
        simp only [Act.sysAfter, Sys.ipcSend, he]
      rw [hres]
      refine hcalm ?_
      rcases hs' with rfl | rfl
      · exact (Sys.Settled.refl _).calmer
      · exact Sys.settled_tick.calmer
    · -- the message is in the queue: the sender blocks, the target may be woken
      have hres : s.ipcSend t target payload permitted transferred =
          (.ok ⟨t, .request, payload, s.nextMessageId⟩,
            ((s.tick.setQueue target q).block t target s.nextMessageId).wakeReceiver target) := by
        simp only [Sys.ipcSend, he]
      have hq' : s.Calmer (s.tick.setQueue target q) := (Sys.settled_tick.trans (Sys.settled_setQueue target q)).calmer
      have hblock := Sys.stamped_block (hq'.stamped hs) t target s.nextMessageId
      simp only [Act.sysAfter, hres]
      refine ⟨(Sys.settled_wakeReceiver target).calmer.stamped hblock, fun u S hw => ?_⟩
      rcases Sys.waitsFor_block ((Sys.settled_wakeReceiver target).calmer.waitsFor hblock hw) with hw | ⟨rfl, rfl⟩
      · exact .inl (hq'.waitsFor hs hw)
      · exact .inr ⟨rfl, rfl, _, congrArg Prod.fst hres⟩
  | receive t =>
    refine hcalm ?_
    simp only [Act.sysAfter, Sys.ipcReceive]
    cases hpop : s.popMessage t with
    | none => exact Sys.along_update (fun k => (Task.Settles.refl k).1) fun _ _ => Task.calms_of_free (.inr rfl)
    | some p => exact ((Sys.settled_popMessage hpop).trans (Sys.settled_keepMessage t _)).calmer
  | _ => exact hcalm (Sys.settled_sysAfter rfl).calmer

theorem waitsFor_deliver {s : Sys} {u t t' S : Nat} {payload : List Nat} :
    (s.deliver u t payload).WaitsFor t' S ↔ t' ≠ t ∧ s.WaitsFor t' S := by
  constructor
  · rintro ⟨k', hk', hw⟩
    rcases Sys.tasks_update hk' with ⟨hne, hk⟩ | ⟨rfl, k, hk, rfl⟩
    · exact ⟨hne, k', hk, hw⟩
    · rcases hw with hw | ⟨hw, -⟩ <;> cases hw
  · rintro ⟨hne, k, hk, hw⟩
    refine ⟨k, ?_, hw⟩
    simp only [Sys.deliver, Sys.update, update_of_ne hne]
    exact hk

namespace Ranked

variable {r r' : Ranked} {a : Act}

/-- An act that completes nothing lowers no inherited priority, and a send raises that of its target. -/
theorem inherited_le (h : completes r.world.sys a = none) (S : Nat) : r.inherited S ≤ r.inheritedAfter a S := by
  cases a with
  | send t target payload permitted transferred =>
    simp only [inheritedAfter]
    cases (r.world.sys.ipcSend t target payload permitted transferred).1 with
    | error e => exact Nat.le_refl _
    | ok msg =>
      by_cases hlt : r.inherited target < r.priority t
      · by_cases hS : S = target
        · subst hS
          simp only [if_pos hlt, update_self]
          exact hlt.le
        · simp only [if_pos hlt, update_of_ne hS, Nat.le_refl]
      · simp only [if_neg hlt, Nat.le_refl]
  | _ => simp [inheritedAfter, h]

theorem inherited_of_sends {t S : Nat} (h : a.Sends r.world.sys t S) : r.priority t ≤ r.inheritedAfter a S := by
  cases a with
  | send t target payload permitted transferred =>
    obtain ⟨rfl, rfl, msg, hok⟩ := h
    simp only [inheritedAfter, hok]
    split
    · rw [update_self]
    · next hge => exact Nat.not_lt.mp hge
  | _ => exact h.elim

theorem inherited_of_completes {t u id : Nat} (h : completes r.world.sys a = some (t, u, id)) :
    r.inheritedAfter a = update r.inherited u 0 := by
  cases a with
  | send t target payload permitted transferred => cases h
  | _ => simp [inheritedAfter, h]

theorem next_cases (h : r.next a = some r') :
    r'.world.sys = a.sysAfter r.world.sys ∧ r'.priority = r.priority ∧ r'.inherited = r.inheritedAfter a := by
  simp only [next, map_eq_some_iff] at h
  obtain ⟨w, hw, rfl⟩ := h
  exact ⟨next_sys hw, rfl, rfl⟩

/-- **The step lemma**: from a covered state, an act leads to a covered state exactly when it leaves one. -/
theorem covers_next_iff (hs : r.world.sys.Stamped) (hc : r.Covers) (h : r.next a = some r') :
    r'.Covers ↔ r.LeavesCovered a := by
  obtain ⟨hsys, hprio, hinh⟩ := next_cases h
  unfold Covers LeavesCovered effective at *
  rw [hsys, hprio, hinh]
  cases hcomp : completes r.world.sys a with
  | none =>
    -- nobody's donation is taken away, and a new waiter has donated
    refine ⟨fun _ _ _ _ h => (by cases h), fun _ t S hw => ?_⟩
    rcases (waitsFor_sysAfter hs a).2 t S hw with hw | hsend
    · have hle := inherited_le hcomp S
      have hold := hc t S hw
      omega
    · have hle := inherited_of_sends hsend
      omega
  | some c =>
    obtain ⟨t, u, id⟩ := c
    obtain ⟨payload, -, hdel⟩ := sysAfter_of_completes hcomp
    rw [hdel, inherited_of_completes hcomp]
    simp only [waitsFor_deliver]
    constructor
    · rintro hcov t' u' id' ⟨⟩ t'' hne hw
      have hle := hcov t'' u ⟨hne, hw⟩
      rw [update_self] at hle
      omega
    · rintro hleave t' S ⟨hne, hw⟩
      by_cases hS : S = u
      · subst hS
        have hle := hleave t S id rfl t' hne hw
        omega
      · rw [update_of_ne hS]
        exact hc t' S hw

theorem stamped_next (hs : r.world.sys.Stamped) (h : r.next a = some r') : r'.world.sys.Stamped := by
  rw [(next_cases h).1]
  exact (waitsFor_sysAfter hs a).1

/-! ## Runs -/

/-- From a covered state the two descriptions of a run agree. -/
theorem coveredAlong_iff : ∀ {r : Ranked} (as : List Act), r.world.sys.Stamped → r.Covers →
    (r.CoveredAlong as ↔ r.LeavesCoveredAlong as)
  | r, [], hs, hc => ⟨fun _ => trivial, fun _ => hc⟩
  | r, a :: as, hs, hc => by
    unfold CoveredAlong LeavesCoveredAlong
    cases hn : r.next a with
    | none => exact ⟨fun _ => trivial, fun _ => ⟨hc, trivial⟩⟩
    | some r' =>
      have hstep := covers_next_iff hs hc hn
      have hs' := stamped_next hs hn
      constructor
      · rintro ⟨-, hrest⟩
        -- the rest of the run starts in a covered state
        have hc' : r'.Covers := by
          cases as with
          | nil => exact hrest
          | cons b bs => exact hrest.1
        exact ⟨hstep.mp hc', (coveredAlong_iff as hs' hc').mp hrest⟩
      · rintro ⟨hleave, hrest⟩
        exact ⟨hc, (coveredAlong_iff as hs' (hstep.mpr hleave)).mpr hrest⟩

theorem boot_tasks {existing : Nat → Bool} {priority : Nat → Nat} {t : Nat} {k : Task}
    (h : (boot existing priority).world.sys.tasks t = some k) : k = .new := by
  simp only [boot, World.boot] at h
  split at h
  · exact (some.inj h).symm
  · cases h

/-- **Priority inheritance along a run**: every state of a run from boot is covered exactly when no reply of it leaves
    a more urgent task waiting. -/
theorem covered_along_iff (existing : Nat → Bool) (priority : Nat → Nat) (as : List Act) :
    (boot existing priority).CoveredAlong as ↔ (boot existing priority).LeavesCoveredAlong as := by
  refine coveredAlong_iff as (fun t k hk S hS => ?_) (fun t S hw => ?_)
  · cases boot_tasks hk
    cases hS
  · obtain ⟨k, hk, hw⟩ := hw
    cases boot_tasks hk
    rcases hw with hw | ⟨hw, -⟩ <;> cases hw

/-- The state after an act, the same one when the act is not enabled. -/
def after (r : Ranked) (a : Act) : Ranked := (r.next a).getD r

theorem CoveredAlong.after {as : List Act} (h : r.CoveredAlong (a :: as)) (hn : (r.next a).isSome = true) :
    (r.after a).CoveredAlong as := by
  obtain ⟨r', hr'⟩ := isSome_iff_exists.mp hn
  unfold CoveredAlong at h
  rw [hr'] at h
  rw [Ranked.after, hr']
  exact h.2

/-- Tasks 1, 2 and 3; task 2 is less urgent than the others. -/
def threeTasks : Ranked := boot (fun t => t == 1 || t == 2 || t == 3) fun t => if t = 2 then 10 else 200

/-- **A reply takes the donation of the other client away.**  Tasks 1 and 3 send to task 2, which receives the first
    request and answers it; task 3 still waits for task 2, which is back at its own priority. -/
theorem reply_uncovers :
    ¬ threeTasks.CoveredAlong
      [.send 1 2 [7, 0, 0, 0] true true, .send 3 2 [8, 0, 0, 0] true true, .receive 2, .reply 2 [9, 0, 0, 0]] := by
  intro h
  have h4 := (((h.after (by decide +kernel)).after (by decide +kernel)).after (by decide +kernel)).after
    (by decide +kernel)
  have hstate : ((((threeTasks.after (.send 1 2 [7, 0, 0, 0] true true)).after (.send 3 2 [8, 0, 0, 0] true true)).after
      (.receive 2)).after (.reply 2 [9, 0, 0, 0])).world.sys.stateOf 3 = some (.blockedOnSend 2) := by decide +kernel
  obtain ⟨k, hk, hs⟩ := map_eq_some_iff.mp hstate
  have hle := h4 3 2 ⟨k, hk, .inl hs⟩
  revert hle
  decide +kernel

end Ranked

end Folkering.Ipc
